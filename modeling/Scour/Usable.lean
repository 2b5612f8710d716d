import Scour.Dates
import Scour.Highlight

/-!
# A value in the colour of a usable one

The highlighter asks `accepts`, a table of what each kind of field takes, and the parser reads the
value with the field's own reader.  A query that is one field and its value is coloured as the two
and the answer of `accepts` (`spansAt_field`), and is parsed as the pieces it is shorthand for, each
read as the field's condition or as text.

`usable_iff` compares the two.
-/

namespace Scour

/-- A spelling of a field, in any letters that fold to one. -/
structure Spelled (R : Reader) (name : Text) (f : FieldName) : Prop where
  long : 2 ≤ name.length
  letters : ∀ c ∈ name, R.isAlphabetic c = true ∧ R.isWhitespace c = false
  named : lookup (DefaultFolder.fold R.case name) = some f

/-- A value without white space, quotes or operators. -/
structure ValueText (R : Reader) (v : Text) : Prop where
  written : v ≠ []
  bare : ∀ c ∈ v, R.isWhitespace c = false ∧ c ≠ '"' ∧ c ≠ '|' ∧ c ≠ '!'

/-! ## The colours -/

namespace Highlight

variable {R : Reader}

theorem blank_of_whitespace {c : Char} (h : R.isWhitespace c = false) : isAsciiWhitespace c = false := by
  by_contra hc
  have hc : isAsciiWhitespace c = true := by simpa using hc
  have hw : R.isWhitespace c = true := by
    unfold isAsciiWhitespace at hc
    simp only [Bool.or_eq_true, beq_iff_eq] at hc
    rcases hc with (((rfl | rfl) | rfl) | rfl) | rfl <;>
      rw [R.whitespace_ascii _ (by decide)] <;> decide
  rw [h] at hw
  cases hw

/-- What holds no white space and no quote is one token. -/
theorem tokensFrom_bare (s : Text) (h : ∀ c ∈ s, R.isWhitespace c = false ∧ c ≠ '"') :
    ∀ cur, cur ≠ [] → tokensFrom cur false false s = [cur ++ s] := by
  induction s with
  | nil =>
    intro cur hcur
    simp [tokensFrom, hcur]
  | cons c s ih =>
    intro cur hcur
    obtain ⟨h1, h2⟩ := h c List.mem_cons_self
    rw [tokensFrom]
    simp only [blank_of_whitespace h1, if_neg hcur, Bool.false_eq_true, if_false, if_neg h2, and_false]
    rw [ih (fun d hd => h d (List.mem_cons_of_mem _ hd)) _ (by simp)]
    simp

theorem tokens_bare {s : Text} (hne : s ≠ []) (h : ∀ c ∈ s, R.isWhitespace c = false ∧ c ≠ '"') :
    tokens s = [(0, s)] := by
  cases s with
  | nil => exact absurd rfl hne
  | cons c s =>
    obtain ⟨h1, h2⟩ := h c List.mem_cons_self
    have hquote : (c == '"') = false := by simpa using h2
    have htail := tokensFrom_bare s (fun d hd => h d (List.mem_cons_of_mem _ hd)) [c] (by simp)
    unfold tokens
    rw [tokensFrom]
    simp only [blank_of_whitespace h1, hquote, Bool.and_false, if_true]
    rw [htail]
    rfl

/-- Where nothing separates two terms, nothing is absorbed. -/
theorem absorbFrom_eq {query : Text} {spans : List Span} (h : ∀ s ∈ spans, s.role ≠ .space) :
    ∀ before, absorbFrom query before spans = spans := by
  induction spans with
  | nil => intro before; rfl
  | cons s spans ih =>
    intro before
    have hs := h s List.mem_cons_self
    rw [absorbFrom]
    simp only [hs, false_and, if_false]
    rw [ih fun t ht => h t (List.mem_cons_of_mem _ ht)]

theorem role_itemSpans (items : List Text) : ∀ start first, ∀ s ∈ itemSpans start first items,
    s.role = .value ∨ s.role = .sep := by
  induction items with
  | nil => simp [itemSpans]
  | cons item items ih =>
    intro start first s hs
    rw [itemSpans, List.mem_append, List.mem_append] at hs
    rcases hs with (hs | hs) | hs
    · split at hs
      · cases hs
      · rw [List.mem_singleton.mp hs]
        exact Or.inr rfl
    · split at hs
      · cases hs
      · rw [List.mem_singleton.mp hs]
        exact Or.inl rfl
    · exact ih _ _ s hs

/-- A value is bad, or a comparison, items and their separators. -/
theorem role_valueSpans (start : Nat) {value : Text} (hne : value ≠ []) (f : FieldName) (now : Int64) :
    accepts R f (DefaultFolder.fold R.case (unquote value)) now = false ∧
        valueSpans R start value f now = [Span.new start (utf8 value).length .badValue] ∨
      accepts R f (DefaultFolder.fold R.case (unquote value)) now = true ∧
        ∀ s ∈ valueSpans R start value f now, s.role = .cmp ∨ s.role = .value ∨ s.role = .sep := by
  unfold valueSpans
  rw [if_neg hne]
  cases ha : accepts R f (DefaultFolder.fold R.case (unquote value)) now with
  | false => exact Or.inl ⟨rfl, rfl⟩
  | true =>
    right
    refine ⟨rfl, ?_⟩
    simp only [Bool.true_eq_false, if_false]
    generalize (if f.takes = .size ∨ f.takes = .time then cmpLen value else 0) = opLen
    intro s hs
    rcases List.mem_append.mp hs with hs | hs
    · split at hs
      · rw [List.mem_singleton.mp hs]
        exact Or.inl rfl
      · cases hs
    · right
      split at hs
      · exact role_itemSpans _ _ _ s hs
      · split at hs
        · cases hs
        · rw [List.mem_singleton.mp hs]
          exact Or.inl rfl

variable {name v : Text} {f : FieldName}

theorem letter_plain (h : Spelled R name f) {c : Char} (hc : c ∈ name) :
    c ≠ '"' ∧ c ≠ '|' ∧ c ≠ '!' ∧ c ≠ ':' ∧ c ≠ ';' ∧ c ≠ '(' ∧ c ≠ '<' := by
  have ha := (h.letters c hc).1
  refine ⟨?_, ?_, ?_, ?_, ?_, ?_, ?_⟩ <;> rintro rfl <;>
    rw [R.alphabetic_ascii _ (by decide)] at ha <;> exact absurd ha (by decide)

theorem fieldSplit_colon (h : Spelled R name f) (v : Text) :
    fieldSplit R (name ++ ':' :: v) = some (name, v) := by
  have hne : ∀ c ∈ name, decide (c ≠ ':') = true := fun c hc => by
    simpa using (letter_plain h hc).2.2.2.1
  have hall : name.all R.isAlphabetic = true := List.all_eq_true.mpr fun c hc => (h.letters c hc).1
  have hlong := h.long
  unfold fieldSplit
  rw [if_neg (by simp)]
  simp only [List.takeWhile_append_of_pos hne, List.dropWhile_append_of_pos hne]
  simp [hall]
  omega

theorem query_chars (h : Spelled R name f) (hv : ValueText R v) : ∀ c ∈ name ++ ':' :: v,
    R.isWhitespace c = false ∧ c ≠ '"' ∧ c ≠ '|' := by
  intro c hc
  simp only [List.mem_append, List.mem_cons] at hc
  rcases hc with hc | rfl | hc
  · exact ⟨(h.letters c hc).2, (letter_plain h hc).1, (letter_plain h hc).2.1⟩
  · refine ⟨?_, by decide, by decide⟩
    rw [R.whitespace_ascii ':' (by decide)]
    decide
  · obtain ⟨h1, h2, h3, -⟩ := hv.bare c hc
    exact ⟨h1, h2, h3⟩

/-- A query of a field begins with a letter. -/
theorem query_head (h : Spelled R name f) (v : Text) : ∃ b, (name ++ ':' :: v).head? = some b ∧
    b ≠ '"' ∧ b ≠ '|' ∧ b ≠ '!' ∧ b ≠ ':' ∧ b ≠ ';' ∧ b ≠ '(' ∧ b ≠ '<' := by
  cases hname : name with
  | nil =>
    have := h.long
    rw [hname] at this
    cases this
  | cons b rest => exact ⟨b, rfl, letter_plain h (c := b) (by rw [hname]; exact List.mem_cons_self)⟩

/-- A field and its value are coloured as what they are. -/
theorem spansAt_field (h : Spelled R name f) (hv : ValueText R v) (now : Int64) :
    spansAt R (name ++ ':' :: v) now =
      Span.new 0 (utf8 name).length .field :: Span.new (utf8 name).length 1 .colon ::
        valueSpans R ((utf8 name).length + 1) v f now := by
  have hq := query_chars h hv
  obtain ⟨b, hhead, hb⟩ := query_head h v
  have hlen : 2 < (name ++ ':' :: v).length := by
    have := h.long
    simp
    omega
  have hfield := fieldSplit_colon h v
  generalize name ++ ':' :: v = q at hq hfield hhead hlen ⊢
  have hne : q ≠ [] := by
    rintro rfl
    cases hlen
  have hquoted : startsQuoted q = false := by simp [startsQuoted, hhead, hb.1]
  have hspace : isSpace R q = false := by
    unfold isSpace
    rw [List.all_eq_false]
    refine ⟨b, List.mem_of_mem_head? hhead, ?_⟩
    simp [(hq b (List.mem_of_mem_head? hhead)).1]
  have hstrip : stripPrefix ['!'] q = none := by
    unfold stripPrefix
    rw [if_neg]
    rintro ⟨s, rfl⟩
    exact hb.2.2.1 (by simpa using hhead.symm)
  have hof : fieldOf R q = some f := by
    unfold fieldOf
    rw [hstrip]
    simp [hquoted, hfield, h.named]
  have hmark : ∀ s, q ≠ '!' :: s := by
    rintro s rfl
    exact hb.2.2.1 (by simpa using hhead.symm)
  have halt : alternativeSpans R 0 q now = Span.new 0 (utf8 name).length .field ::
      Span.new (utf8 name).length 1 .colon :: valueSpans R ((utf8 name).length + 1) v f now := by
    unfold alternativeSpans
    split
    rename_i mark start rest heq
    split at heq
    · exact absurd rfl (hmark _)
    · obtain ⟨rfl, rfl, rfl⟩ : mark = [] ∧ start = 0 ∧ rest = q := by simpa [eq_comm] using heq
      simp [hne, hfield, h.named]
  have hone : splitOutsideQuotes q '|' = [q] :=
    splitOutsideQuotes_of_notMem '|' q fun c hc => (hq c hc).2
  have hterm : term R 0 q now = (alternativeSpans R 0 q now, false) := by
    have hpieces : termPieces R q = [(q, false)] := by simp [termPieces, hof]
    have hbang : (q.head? == some '!') = false := by simp [hhead, hb.2.2.1]
    unfold term
    rw [if_neg (by rintro rfl; simp at hlen), if_neg (by rintro rfl; simp at hlen),
      if_neg (by rintro rfl; simp at hlen), hpieces]
    simp [termsFrom, oneTerm, hone, alternativesFrom, alternative, hbang]
  have hspans : spansFrom R now [] ⟨none, false, false, false⟩ [(0, q)] = alternativeSpans R 0 q now := by
    simp [spansFrom, spansStep, spansStep.fresh, hspace, hterm]
  unfold spansAt
  rw [tokens_bare hne fun c hc => ⟨(hq c hc).1, (hq c hc).2.1⟩, hspans, halt]
  apply absorbFrom_eq
  intro s hs
  rcases List.mem_cons.mp hs with rfl | hs
  · exact fun h => nomatch h
  · rcases List.mem_cons.mp hs with rfl | hs
    · exact fun h => nomatch h
    · rcases role_valueSpans ((utf8 name).length + 1) hv.written f now with ⟨-, heq⟩ | ⟨-, hroles⟩
      · rw [heq, List.mem_singleton] at hs
        rw [hs]
        exact fun h => nomatch h
      · rcases hroles s hs with hr | hr | hr <;> rw [hr] <;> exact fun h => nomatch h

/-- The value is marked usable: nothing of the query is a bad value. -/
def usable (R : Reader) (query : Text) (now : Int64) : Bool :=
  (spansAt R query now).all (·.role ≠ .badValue)

theorem unquote_plain (hv : ValueText R v) : unquote v = v := by
  apply List.filter_eq_self.mpr
  intro c hc
  simpa using (hv.bare c hc).2.1

theorem usable_eq (h : Spelled R name f) (hv : ValueText R v) (now : Int64) :
    usable R (name ++ ':' :: v) now = accepts R f (DefaultFolder.fold R.case v) now := by
  unfold usable
  rw [spansAt_field h hv]
  have hroles := role_valueSpans (R := R) ((utf8 name).length + 1) hv.written f now
  rw [unquote_plain hv] at hroles
  rcases hroles with ⟨ha, heq⟩ | ⟨ha, hroles⟩
  · rw [heq, ha]
    rfl
  · rw [ha]
    simp only [List.all_cons, Span.new, List.all_eq_true, Bool.and_eq_true]
    refine ⟨rfl, rfl, ?_⟩
    intro s hs
    rcases hroles s hs with hr | hr | hr <;> rw [hr] <;> decide

end Highlight

/-! ## The parser -/

/-- The condition a field asks for. -/
def FieldName.asks : FieldName → Match → Bool
  | .ext, .ext _ | .path, .pathContains _ | .under, .under _ | .parent, .parentIs _ => true
  | .file, .isDir false | .folder, .isDir true | .size, .size _ _ | .kind, .kind _ => true
  | .dm, .time .modified _ _ | .dc, .time .created _ _ | .da, .time .accessed _ _ => true
  | .content, .contentContains _ | .regex, .regex _ | .case, .nameContainsCased _ => true
  | .node, .bits _ _ _ _ | .perm, .bits _ _ _ _ | .suid, .bits _ _ _ _ | .sgid, .bits _ _ _ _ => true
  | .sticky, .bits _ _ _ _ | .ww, .bits _ _ _ _ => true
  | .user, .num .uid _ _ | .group, .num .gid _ _ | .depth, .depth _ _ | .len, .nameLen _ _ => true
  | .empty, .isDir false | .empty, .size .eq 0 => true
  | .startwith, .nameGlob _ | .endwith, .nameGlob _ => true
  | .audio, .kind k => k = [.audio]
  | .video, .kind k => k = [.video]
  | .pic, .kind k => k = [.image]
  | .doc, .kind k => k = [.doc]
  | .exe, .kind k => k = [.exec]
  | .zip, .kind k => k = [.archive]
  | _, _ => false

/-- The query is the field's conditions, and none of it is searched for as text. -/
def used (R : Reader) (now : Int64) (home : Option Text) (f : FieldName) (query : Text) : Bool :=
  let groups := (parseIn R now home query).groups
  groups ≠ [] && groups.all fun g => g.alts.all fun a => f.asks a.2

section

variable {R : Reader} {now : Int64} {home : Option Text} {f : FieldName}

theorem parseTime_some {fld : TimeField} {w : Text} {m : Match} (h : parseTime R fld w now = some m) :
    ∃ cmp at_, m = .time fld cmp at_ := by
  unfold parseTime at h
  simp only at h
  split at h
  · cases h
  · split at h
    · cases h
      exact ⟨_, _, rfl⟩
    · obtain ⟨day, -, rfl⟩ := Option.map_eq_some_iff.mp h
      exact ⟨_, _, rfl⟩

theorem parsePerm_some {w : Text} {m : Match} (h : parsePerm w = some m) :
    ∃ mask want any, m = bits mask want any := by
  unfold parsePerm at h
  split at h <;> obtain ⟨n, -, rfl⟩ := Option.map_eq_some_iff.mp h <;> exact ⟨_, _, _, rfl⟩

theorem resolveOwner_some {fld : NumField} {w : Text} {m : Match} (h : resolveOwner R fld w = some m) :
    ∃ n, m = .num fld .eq n := by
  unfold resolveOwner at h
  simp only at h
  split at h
  · cases h
  · split at h
    · cases h
      exact ⟨_, rfl⟩
    · obtain ⟨n, -, rfl⟩ := Option.map_eq_some_iff.mp h
      exact ⟨n, rfl⟩

/-- What a field reads is its own condition. -/
theorem asks_fieldMatch {w : Text} {m : Match} (h : fieldMatch R now home f w = some m) :
    f.asks m = true := by
  cases f <;> simp only [fieldMatch, Option.some.injEq, Option.ite_none_right_eq_some,
    Option.map_eq_some_iff, reduceCtorEq] at h
  case dm | dc | da =>
    obtain ⟨cmp, at_, rfl⟩ := parseTime_some h
    rfl
  case user | group =>
    obtain ⟨n, rfl⟩ := resolveOwner_some h
    rfl
  case perm =>
    obtain ⟨mask, want, any, rfl⟩ := parsePerm_some h
    rfl
  case node =>
    obtain ⟨r, -, rfl⟩ := Option.map_eq_some_iff.mp h
    rfl
  case size =>
    obtain ⟨n, -, rfl⟩ := Option.map_eq_some_iff.mp h
    rfl
  case under | parent | content | case | regex =>
    rw [← h.2]
    rfl
  case kind | len | depth =>
    obtain ⟨n, -, rfl⟩ := h
    rfl
  all_goals
    rw [← h]
    rfl

/-- Only a path and a pattern are asked for as text is. -/
theorem not_asks_nameMatch (hp : f ≠ .path) (hs : f ≠ .startwith) (he : f ≠ .endwith) (t : Text) :
    f.asks (nameMatch t) = false := by
  unfold nameMatch
  split_ifs <;> cases f <;> first | rfl | exact absurd rfl hp | exact absurd rfl hs | exact absurd rfl he

/-- A term is the field's condition exactly where the value is read. -/
theorem asks_read (hs : f ≠ .startwith) (he : f ≠ .endwith) (w t : Text) :
    f.asks ((fieldMatch R now home f w).getD (nameMatch t)) = (fieldMatch R now home f w).isSome := by
  cases hm : fieldMatch R now home f w with
  | some m => exact asks_fieldMatch hm
  | none =>
    have hp : f ≠ .path := by
      rintro rfl
      cases hm
    exact not_asks_nameMatch hp hs he t

/-- What is written in one token and reads as pieces is their conditions. -/
theorem used_pieces {q : Text} {ts : List Text} (body : Text → Match) (hpasses : passes R q = [q])
    (hexpand : expand R q = ts) (hts : ts ≠ [])
    (h : ∀ t ∈ ts, (∀ c ∈ t, c ≠ '"' ∧ c ≠ '|') ∧ t.head? ≠ some '!' ∧ t ≠ [] ∧
      parseBody R now home t = some (body t)) :
    used R now home f q = ts.all fun t => f.asks (body t) := by
  have hgroups : (parseIn R now home q).groups = ts.map fun t => ⟨[(false, body t)]⟩ := by
    unfold parseIn
    rw [hpasses, List.flatMap_singleton, hexpand, List.filterMap_map]
    rw [← List.filterMap_eq_map]
    apply List.filterMap_congr
    intro t ht
    obtain ⟨hplain, hbang, hne, hbody⟩ := h t ht
    simp [alternatives_plain hplain, parseAlt_plain R now home hne hbang, hbody]
  unfold used
  simp only [hgroups]
  simp [hts, List.all_map, Function.comp_def]

/-- A term of a field alone is the whole query. -/
theorem passes_field {name v : Text} (h : Spelled R name f) (hv : ValueText R v) :
    passes R (name ++ ':' :: v) = [name ++ ':' :: v] ∧
      splitField R (name ++ ':' :: v) = some (DefaultFolder.fold R.case name, v) := by
  have hq := Highlight.query_chars h hv
  obtain ⟨b, hhead, hb⟩ := Highlight.query_head h v
  have hcolon : ':' ∉ name := fun hc => (Highlight.letter_plain h hc).2.2.2.1 rfl
  have hall : name.all R.isAlphabetic = true := List.all_eq_true.mpr fun c hc => (h.letters c hc).1
  have hlong := h.long
  have hfield : splitField R (name ++ ':' :: v) = some (DefaultFolder.fold R.case name, v) := by
    rw [splitField_colon R name v hcolon, if_neg (by simp [hall]; omega)]
  have hne : name ++ ':' :: v ≠ [] := by simp
  refine ⟨?_, hfield⟩
  generalize name ++ ':' :: v = q at hq hhead hfield hne
  obtain ⟨hbare, -⟩ := bare_of_plain q fun c hc => ⟨(hq c hc).1, (hq c hc).2.1⟩
  have hstrip : stripPrefix ['!'] q = none := by
    unfold stripPrefix
    rw [if_neg]
    rintro ⟨s, rfl⟩
    exact hb.2.2.1 (by simpa using hhead.symm)
  apply passes_one (tokenize_of_bare R hbare hne) hne
  · rintro rfl
    exact hb.2.2.1 (by simpa using hhead.symm)
  · refine ⟨Or.inl ?_, ?_, ?_⟩
    · unfold isFieldToken tokenField
      rw [hstrip]
      simp [hfield, h.named]
    · intro hlast
      exact (hq _ (List.mem_of_getLast? hlast)).2.2 rfl
    · simp [joinParens, joinParensFrom, opensGroup, hhead, hb]

variable {name v : Text}

theorem expand_field (h : Spelled R name f) (hv : ValueText R v) :
    expand R (name ++ ':' :: v) =
      expandField f (DefaultFolder.fold R.case name) v (name ++ ':' :: v) := by
  obtain ⟨-, hfield⟩ := passes_field h hv
  obtain ⟨b, hhead, hb⟩ := Highlight.query_head h v
  have hbang : (name ++ ':' :: v).head? ≠ some '!' := by
    rw [hhead]
    exact fun he => hb.2.2.1 (Option.some.inj he)
  rw [expand_eq R hbang]
  simp [fieldOf, hfield, h.named]

/-- A term that is no shorthand is the condition on its field, if its value is read. -/
theorem used_alone (h : Spelled R name f) (hv : ValueText R v) (hs : f ≠ .startwith)
    (he : f ≠ .endwith)
    (hexpand : expandField f (DefaultFolder.fold R.case name) v (name ++ ':' :: v) =
      [name ++ ':' :: v]) :
    used R now home f (name ++ ':' :: v) = (fieldMatch R now home f v).isSome := by
  obtain ⟨hpasses, hfield⟩ := passes_field h hv
  obtain ⟨b, hhead, hb⟩ := Highlight.query_head h v
  have hq := Highlight.query_chars h hv
  have hpieces := @used_pieces R now home f _ _ (fun t =>
    (fieldMatch R now home f v).getD (nameMatch (DefaultFolder.fold R.case (unquote t)))) hpasses
    ((expand_field h hv).trans hexpand) (by simp) (by
      intro t ht
      rw [List.mem_singleton.mp ht]
      refine ⟨fun c hc => (hq c hc).2, ?_, by simp, ?_⟩
      · rw [hhead]
        exact fun he => hb.2.2.1 (Option.some.inj he)
      · simp [parseBody, hfield, h.named, Highlight.unquote_plain hv])
  rw [hpieces]
  simp [asks_read hs he]

/-- The ends of a range, each as a value of its own. -/
def rangeEnds (v : Text) : List Text :=
  match splitDots v with
  | some ([], []) => []
  | some ([], hi) => ["<=".toList ++ hi]
  | some (lo, []) => [">=".toList ++ lo]
  | some (lo, hi) => [">=".toList ++ lo, "<=".toList ++ hi]
  | none => []

/-- A field of sizes or times is spelled in lower case. -/
theorem lower_of_measured {f : FieldName} (hf : f.takes = .size ∨ f.takes = .time) :
    ∀ s ∈ f.spellings, 2 ≤ s.length ∧ (∀ c ∈ s, c.isLower = true) ∧ lookup s = some f := by
  cases f <;> first | exact absurd hf (by decide) | decide

theorem expandField_measured {f : FieldName} (hf : f.takes = .size ∨ f.takes = .time)
    (field value body : Text) : expandField f field value body =
      if rangeEnds value = [] then [body]
      else (rangeEnds value).map fun e => field ++ ':' :: e := by
  have hrest : macroKind f = none ∧ f ≠ .empty ∧ f ≠ .startwith ∧ f ≠ .endwith := by
    cases f <;> first | exact absurd hf (by decide) | decide
  obtain ⟨hk, hempty, hstart, hend⟩ := hrest
  unfold expandField rangeEnds
  rw [hk]
  simp only [hempty, hstart, hend, if_false, false_and, hf, if_true]
  match splitDots value with
  | none => rfl
  | some ([], []) => rfl
  | some ([], _ :: _) => simp
  | some (_ :: _, []) => simp
  | some (_ :: _, _ :: _) => simp

theorem mem_rangeEnds {v e : Text} (he : e ∈ rangeEnds v) {c : Char} (hc : c ∈ e) :
    c ∈ v ∨ c = '>' ∨ c = '<' ∨ c = '=' := by
  unfold rangeEnds at he
  have hmem : ∀ lo hi, splitDots v = some (lo, hi) → (∀ c ∈ lo, c ∈ v) ∧ ∀ c ∈ hi, c ∈ v := by
    intro lo hi hd
    rw [splitDots_eq hd]
    exact ⟨fun c hc => by simp [hc], fun c hc => by simp [hc]⟩
  split at he
  · cases he
  · rename_i hi _ hd
    rw [List.mem_singleton.mp he] at hc
    have := (hmem _ _ hd).2 c
    simp at hc
    tauto
  · rename_i lo _ hd
    rw [List.mem_singleton.mp he] at hc
    have := (hmem _ _ hd).1 c
    simp at hc
    tauto
  · rename_i lo hi _ _ hd
    have h1 := (hmem _ _ hd).1 c
    have h2 := (hmem _ _ hd).2 c
    simp at he
    rcases he with rfl | rfl <;> simp at hc <;> tauto
  · cases he

/-- A range is the conditions its ends are, where every end is read. -/
theorem used_range (h : Spelled R name f) (hv : ValueText R v)
    (hf : f.takes = .size ∨ f.takes = .time) (hrange : rangeEnds v ≠ []) :
    used R now home f (name ++ ':' :: v) =
      (rangeEnds v).all fun e => (fieldMatch R now home f e).isSome := by
  obtain ⟨hpasses, -⟩ := passes_field h hv
  obtain ⟨hlen, hlower, hlookup⟩ := lower_of_measured hf _ (mem_spellings_of_lookup h.named)
  have hs : f ≠ .startwith ∧ f ≠ .endwith := by
    constructor <;> rintro rfl <;> exact absurd hf (by decide)
  have hexpand := expand_field h hv
  rw [expandField_measured hf, if_neg hrange] at hexpand
  generalize DefaultFolder.fold R.case name = field at hlen hlower hlookup hexpand
  have hpieces := @used_pieces R now home f _ _ (fun t =>
    (fieldMatch R now home f (t.drop (field.length + 1))).getD
      (nameMatch (DefaultFolder.fold R.case (unquote t)))) hpasses hexpand (by simpa using hrange) (by
      intro t ht
      obtain ⟨e, he, rfl⟩ := List.mem_map.mp ht
      have hplain : ∀ c ∈ e, c ≠ '"' ∧ c ≠ '|' := by
        intro c hc
        rcases mem_rangeEnds he hc with hc | rfl | rfl | rfl
        · exact ⟨(hv.bare c hc).2.1, (hv.bare c hc).2.2.1⟩
        · decide
        · decide
        · decide
      have hname : ∀ c ∈ field, c ≠ '"' ∧ c ≠ '|' ∧ c ≠ '!' := fun c hc =>
        ⟨(quiet_of_lower (R := R) (hlower c hc)).2.1, (quiet_of_lower (R := R) (hlower c hc)).2.2.1,
          (quiet_of_lower (R := R) (hlower c hc)).2.2.2.2.2.2.2.1⟩
      refine ⟨?_, ?_, by simp, ?_⟩
      · intro c hc
        simp only [List.mem_append, List.mem_cons] at hc
        rcases hc with hc | rfl | hc
        · exact ⟨(hname c hc).1, (hname c hc).2.1⟩
        · decide
        · exact hplain c hc
      · cases field with
        | nil => cases hlen
        | cons b field =>
          intro hb
          exact (hname b List.mem_cons_self).2.2 (by simpa using hb)
      · have hunquote : unquote e = e := List.filter_eq_self.mpr fun c hc => by
          simpa using (hplain c hc).1
        have hdrop : (field ++ ':' :: e).drop (field.length + 1) = e := by simp
        simp [parseBody, splitField_lower field hlen hlower e, hlookup, hunquote, hdrop])
  rw [hpieces, List.all_map]
  congr 1
  funext e
  have hdrop : (field ++ ':' :: e).drop (field.length + 1) = e := by simp
  simp [Function.comp, asks_read hs.1 hs.2, hdrop]

theorem parseBody_kind {k : Text} {kinds : List Kind}
    (hk : ∀ c ∈ k, c.toNat < 128 ∧ c.toLower = c ∧ c ≠ '"') (hkinds : Kind.fromName k = some kinds) :
    parseBody R now home ("kind:".toList ++ k) = some (.kind kinds) := by
  have hunquote : unquote k = k := List.filter_eq_self.mpr fun c hc => by simpa using (hk c hc).2.2
  have hfold : DefaultFolder.fold R.case (unquote k) = k := by
    rw [hunquote]
    exact fold_of_lower R.case k fun c hc => ⟨(hk c hc).1, (hk c hc).2.1⟩
  have hfield : splitField R ("kind:".toList ++ k) = some ("kind".toList, k) :=
    splitField_lower "kind".toList (by decide) (by decide) k
  apply parseBody_of_field R now home hfield lookup_kind
  show (Kind.fromName (DefaultFolder.fold R.case (unquote k))).map Match.kind = _
  rw [hfold, hkinds]
  rfl

/-- A macro is the kind it stands for. -/
theorem used_macro {k : String} (h : Spelled R name f) (hv : ValueText R v)
    (hk : macroKind f = some k) : used R now home f (name ++ ':' :: v) = true := by
  obtain ⟨hpasses, -⟩ := passes_field h hv
  have hexpand := expand_field h hv
  unfold expandField at hexpand
  rw [hk] at hexpand
  have hkind : ∃ kinds, Kind.fromName k.toList = some kinds ∧ f.asks (.kind kinds) = true ∧
      (∀ c ∈ k.toList, c.toNat < 128 ∧ c.toLower = c ∧ c ≠ '"' ∧ c ≠ '|') := by
    cases f <;> cases hk <;> exact ⟨_, rfl, rfl, by decide⟩
  obtain ⟨kinds, hkinds, hasks, hchars⟩ := hkind
  rw [used_pieces (fun _ => .kind kinds) hpasses hexpand (by simp) ?_]
  · simp [hasks]
  · intro t ht
    rw [List.mem_singleton.mp ht]
    refine ⟨?_, by simp, by simp, ?_⟩
    · intro c hc
      rcases List.mem_append.mp hc with hc | hc
      · exact (by decide : ∀ c ∈ "kind:".toList, c ≠ '"' ∧ c ≠ '|') c hc
      · exact (hchars c hc).2.2
    · exact parseBody_kind (fun c hc => ⟨(hchars c hc).1, (hchars c hc).2.1, (hchars c hc).2.2.1⟩) hkinds

theorem used_empty (h : Spelled R name .empty) (hv : ValueText R v) :
    used R now home .empty (name ++ ':' :: v) = true := by
  obtain ⟨hpasses, -⟩ := passes_field h hv
  have hexpand := expand_field h hv
  have hpieces : expandField .empty (DefaultFolder.fold R.case name) v (name ++ ':' :: v) =
      ["file:".toList, "size:=0".toList] := rfl
  rw [hpieces] at hexpand
  have hfile : parseBody R now home "file:".toList = some (.isDir false) :=
    parseBody_of_field R now home (splitField_lower "file".toList (by decide) (by decide) [])
      lookup_file rfl
  have hsize : parseBody R now home "size:=0".toList = some (.size .eq 0) := by
    apply parseBody_of_field R now home
      (splitField_lower "size".toList (by decide) (by decide) "=0".toList) lookup_size
    show parseSize R (DefaultFolder.fold R.case (unquote "=0".toList)) = _
    rw [fold_of_lower R.case (unquote "=0".toList) (by decide)]
    exact parseSize_zero
  rw [used_pieces (fun t => if t = "file:".toList then .isDir false else .size .eq 0) hpasses
    hexpand (by simp) ?_]
  · rfl
  · intro t ht
    simp only [List.mem_cons, List.not_mem_nil, or_false] at ht
    rcases ht with rfl | rfl
    · exact ⟨by decide, by decide, by decide, hfile⟩
    · exact ⟨by decide, by decide, by decide, hsize⟩

/-- With a star behind it the value is a pattern, and no field's term. -/
def Pattern (R : Reader) (now : Int64) (home : Option Text) (v : Text) : Prop :=
  '/' ∉ DefaultFolder.fold R.case v ∧
    ∀ field w f, splitField R (v ++ ['*']) = some (field, w) → lookup field = some f →
      fieldMatch R now home f (unquote w) = none

/-- No field is a pattern's. -/
theorem not_glob_fieldMatch {w : Text} {m : Match} (h : fieldMatch R now home f w = some m) :
    FieldName.startwith.asks m = false := by
  have hasks := asks_fieldMatch h
  cases m with
  | nameGlob p =>
    cases f with
    | startwith | endwith => cases h
    | _ => cases hasks
  | _ => rfl

theorem asks_nameMatch_star {t : Text} (hstar : '*' ∈ t) (g : FieldName)
    (hg : g = .startwith ∨ g = .endwith) : g.asks (nameMatch t) = decide ('/' ∉ t) := by
  unfold nameMatch
  by_cases hslash : '/' ∈ t
  · rw [if_pos hslash]
    rcases hg with rfl | rfl <;> simp [hslash, FieldName.asks]
  · rw [if_neg hslash, if_pos (Or.inl hstar)]
    rcases hg with rfl | rfl <;> simp [hslash, FieldName.asks]

theorem fold_star : DefaultFolder.fold R.case ['*'] = ['*'] := fold_of_lower R.case ['*'] (by decide)

theorem used_startwith (h : Spelled R name .startwith) (hv : ValueText R v) :
    used R now home .startwith (name ++ ':' :: v) = true ↔ Pattern R now home v := by
  obtain ⟨hpasses, -⟩ := passes_field h hv
  have hexpand := expand_field h hv
  have hpiece : expandField .startwith (DefaultFolder.fold R.case name) v (name ++ ':' :: v) =
      [v ++ ['*']] := by
    unfold expandField
    simp [macroKind, hv.written]
  rw [hpiece] at hexpand
  have hunquote : unquote (v ++ ['*']) = v ++ ['*'] := by
    apply List.filter_eq_self.mpr
    intro c hc
    rcases List.mem_append.mp hc with hc | hc
    · simpa using (hv.bare c hc).2.1
    · rw [List.mem_singleton.mp hc]
      decide
  have hfold : DefaultFolder.fold R.case (v ++ ['*']) = DefaultFolder.fold R.case v ++ ['*'] := by
    rw [DefaultFolder.fold_append, fold_star]
  have hasks := asks_nameMatch_star (t := DefaultFolder.fold R.case v ++ ['*']) (by simp) .startwith
    (Or.inl rfl)
  have hslash : '/' ∉ DefaultFolder.fold R.case v ++ ['*'] ↔ '/' ∉ DefaultFolder.fold R.case v := by
    simp
  obtain ⟨b, rest, rfl⟩ : ∃ b rest, v = b :: rest := List.exists_cons_of_ne_nil hv.written
  have hb := hv.bare b List.mem_cons_self
  have hquoted : startsQuoted (b :: rest ++ ['*']) = false := by simp [startsQuoted, hb.2.1]
  have hplain : ∀ c ∈ b :: rest ++ ['*'], c ≠ '"' ∧ c ≠ '|' := by
    intro c hc
    rcases List.mem_append.mp hc with hc | hc
    · exact ⟨(hv.bare c hc).2.1, (hv.bare c hc).2.2.1⟩
    · rw [List.mem_singleton.mp hc]
      decide
  have hone : ∀ m, parseBody R now home (b :: rest ++ ['*']) = some m →
      used R now home .startwith (name ++ ':' :: b :: rest) = FieldName.startwith.asks m := by
    intro m hm
    rw [used_pieces (fun _ => m) hpasses hexpand (by simp) ?_]
    · simp
    · intro t ht
      rw [List.mem_singleton.mp ht]
      exact ⟨hplain, by simpa using hb.2.2.2, by simp, hm⟩
  unfold Pattern
  generalize b :: rest = v at *
  cases hfield : splitField R (v ++ ['*']) with
  | none =>
    have hbody : parseBody R now home (v ++ ['*']) =
        some (nameMatch (DefaultFolder.fold R.case v ++ ['*'])) := by
      simp [parseBody, hfield, hunquote, hfold, hquoted]
    rw [hone _ hbody, hasks, decide_eq_true_eq, hslash]
    simp
  | some fw =>
    obtain ⟨field, w⟩ := fw
    have hbody : parseBody R now home (v ++ ['*']) =
        some (((lookup field).bind fun f => fieldMatch R now home f (unquote w)).getD
          (nameMatch (DefaultFolder.fold R.case v ++ ['*']))) := by
      simp [parseBody, hfield, hunquote, hfold]
    rw [hone _ hbody]
    cases hm : (lookup field).bind fun f => fieldMatch R now home f (unquote w) with
    | none =>
      rw [Option.getD_none, hasks, decide_eq_true_eq, hslash]
      constructor
      · intro h
        refine ⟨h, ?_⟩
        intro field' w' f h1 h2
        cases h1
        rw [h2, Option.bind_some] at hm
        exact hm
      · exact And.left
    | some m =>
      obtain ⟨f, hl, hfm⟩ := Option.bind_eq_some_iff.mp hm
      rw [Option.getD_some, not_glob_fieldMatch hfm]
      constructor
      · intro h
        cases h
      · rintro ⟨-, h⟩
        rw [h field w f rfl hl] at hfm
        cases hfm

theorem used_endwith (h : Spelled R name .endwith) (hv : ValueText R v) :
    used R now home .endwith (name ++ ':' :: v) = decide ('/' ∉ DefaultFolder.fold R.case v) := by
  obtain ⟨hpasses, -⟩ := passes_field h hv
  have hexpand := expand_field h hv
  have hpiece : expandField .endwith (DefaultFolder.fold R.case name) v (name ++ ':' :: v) =
      ['*' :: v] := by
    unfold expandField
    simp [macroKind, hv.written]
  rw [hpiece] at hexpand
  have hunquote : unquote ('*' :: v) = '*' :: v := by
    have hv' := Highlight.unquote_plain hv
    unfold unquote at hv' ⊢
    rw [List.filter_cons_of_pos (by decide), hv']
  have hfold : DefaultFolder.fold R.case ('*' :: v) = '*' :: DefaultFolder.fold R.case v := by
    rw [show '*' :: v = ['*'] ++ v from rfl, DefaultFolder.fold_append, fold_star]
    rfl
  have hfield : splitField R ('*' :: v) = none :=
    splitField_eq_none R rfl (by rw [R.alphabetic_ascii _ (by decide)]; decide) (by decide)
  have hbody : parseBody R now home ('*' :: v) =
      some (nameMatch ('*' :: DefaultFolder.fold R.case v)) := by
    simp [parseBody, hfield, hunquote, hfold, startsQuoted]
  have hslash : '/' ∉ '*' :: DefaultFolder.fold R.case v ↔ '/' ∉ DefaultFolder.fold R.case v := by
    simp
  rw [used_pieces (fun _ => nameMatch ('*' :: DefaultFolder.fold R.case v)) hpasses hexpand
    (by simp) ?_]
  · simp only [List.all_cons, List.all_nil, Bool.and_true]
    rw [asks_nameMatch_star (by simp) .endwith (Or.inr rfl)]
    simp only [hslash]
  · intro t ht
    rw [List.mem_singleton.mp ht]
    refine ⟨?_, by simp, by simp, hbody⟩
    intro c hc
    rcases List.mem_cons.mp hc with rfl | hc
    · decide
    · exact ⟨(hv.bare c hc).2.1, (hv.bare c hc).2.2.1⟩

end

/-! ## A range is no number -/

/-- Two dots in a row. -/
def Dotted (t : Text) : Prop := ['.', '.'] <:+: t

namespace Dotted

variable {t s : Text}

theorem of_cons {c : Char} (hc : c ≠ '.') (h : Dotted (c :: s)) : Dotted s := by
  rcases List.infix_cons_iff.mp h with h | h
  · exact absurd (List.cons_prefix_cons.mp h).1.symm hc
  · exact h

theorem of_append {a b : Text} (ha : '.' ∉ a) (h : Dotted (a ++ b)) : Dotted b := by
  induction a with
  | nil => exact h
  | cons c a ih =>
    rw [List.mem_cons, not_or] at ha
    exact ih ha.2 (of_cons (Ne.symm ha.1) h)

theorem reverse (h : Dotted t) : Dotted t.reverse := List.reverse_infix.mpr h

theorem dropWhile {p : Char → Bool} (hp : p '.' = false) (h : Dotted t) : Dotted (t.dropWhile p) := by
  rw [← List.takeWhile_append_dropWhile (p := p) (l := t)] at h
  refine of_append ?_ h
  intro hmem
  rw [List.mem_takeWhile_imp hmem] at hp
  cases hp

theorem trim (R : Reader) (h : Dotted t) : Dotted (R.trim t) := by
  have hdot : R.isWhitespace '.' = false := by
    rw [R.whitespace_ascii _ (by decide)]
    decide
  have h := (h.dropWhile hdot).reverse.dropWhile hdot
  exact h.reverse

theorem splitCmp (h : Dotted t) : Dotted (splitCmp t).2 := by
  unfold Scour.splitCmp
  split
  · exact of_cons (by decide) (of_cons (by decide) h)
  · exact of_cons (by decide) (of_cons (by decide) h)
  · exact of_cons (by decide) h
  · exact of_cons (by decide) h
  · exact of_cons (by decide) h
  · exact h

theorem stripSuffix {p n : Text} (hp : '.' ∉ p) (h : Dotted t) (hn : stripSuffix p t = some n) :
    Dotted n := by
  unfold Scour.stripSuffix at hn
  split_ifs at hn with hsuffix
  obtain ⟨l, rfl⟩ := hsuffix
  have hn : l = n := by simpa using hn
  rw [← hn]
  have h := h.reverse
  rw [List.reverse_append] at h
  have h := (of_append (by simpa using hp) h).reverse
  rwa [List.reverse_reverse] at h

/-- What is no number with two dots is no size with two. -/
theorem parseSizeValue {R : Reader} (hdots : ∀ t, Dotted t → R.parseF64 t = none) (h : Dotted t) :
    parseSizeValue R t = none := by
  unfold Scour.parseSizeValue
  have hrest := h.splitCmp.trim R
  generalize R.trim (Scour.splitCmp t).2 = rest at hrest
  simp only
  have hnum : Dotted ((sizeUnits.findSome? fun u =>
      (Scour.stripSuffix u.1.toList rest).map fun n => (n, u.2)).getD (rest, 1)).1 := by
    cases hf : (sizeUnits.findSome? fun u =>
        (Scour.stripSuffix u.1.toList rest).map fun n => (n, u.2)) with
    | none => exact hrest
    | some r =>
      obtain ⟨u, hu, hr⟩ := List.exists_of_findSome?_eq_some hf
      obtain ⟨n, hn, rfl⟩ := Option.map_eq_some_iff.mp hr
      have hunit : ∀ u ∈ sizeUnits, '.' ∉ u.1.toList := by decide
      exact hrest.stripSuffix (hunit u hu) hn
  rw [hdots _ (hnum.trim R)]
  rfl

end Dotted

theorem parseI64_of_dot {t : Text} (h : '.' ∈ t) : parseI64 t = none := by
  unfold parseI64 fromStrRadix
  split
  rename_i negative digits heq
  have hmem : '.' ∈ digits := by
    split at heq <;> cases heq
    · simpa using h
    · simpa using h
    · exact h
  rw [if_pos]
  right
  rw [List.all_eq_true]
  intro hall
  exact absurd (hall _ hmem) (by decide)

theorem parseIsoDate_of_dot {s : Text} (h : '.' ∈ s) : parseIsoDate s = none := by
  rw [parseIsoDate_eq]
  have hparts : dateParts s = none := by
    unfold dateParts
    split
    · rename_i a b c hsplit
      have hs := Search.intercalate_split '-' s
      rw [hsplit] at hs
      rw [← hs] at h
      have hmem : '.' ∈ a ∨ '.' ∈ b ∨ '.' ∈ c := by simpa [List.intercalate] using h
      rcases hmem with h | h | h
      · simp [parseI64_of_dot h]
      · cases parseI64 a <;> simp [parseI64_of_dot h]
      · cases parseI64 a <;> cases parseI64 b <;> simp [parseI64_of_dot h]
    · rfl
  rw [hparts]

theorem Dotted.parseTimeValue {R : Reader} {t : Text} (h : Dotted t) (now : Int64) :
    parseTimeValue R t now = none := by
  have hdot : '.' ∈ R.trim (Scour.splitCmp t).2 := (h.splitCmp.trim R).subset List.mem_cons_self
  rcases hcmp : Scour.splitCmp t with ⟨cmp, rest⟩
  rw [hcmp] at hdot
  unfold Scour.parseTimeValue
  rw [parseTime_of_date hcmp (List.ne_nil_of_mem hdot) (relativeWindow_of_mem (Or.inr rfl) hdot),
    parseIsoDate_of_dot hdot]
  rfl

/-! ## Usable and used -/

/-- The value is a range, and the field reads every end of it. -/
def ReadRange (R : Reader) (now : Int64) (home : Option Text) (f : FieldName) (v : Text) : Prop :=
  rangeEnds v ≠ [] ∧ ∀ e ∈ rangeEnds v, (fieldMatch R now home f e).isSome = true

/-- Where the table of what a field takes and the field's reader are of one mind. -/
def TableAgrees (R : Reader) (now : Int64) (home : Option Text) (f : FieldName) (v : Text) : Prop :=
  let folded := DefaultFolder.fold R.case v
  match f with
  | .ext => ∃ e ∈ Search.split ';' folded, e.dropWhile (· == '.') ≠ []
  | .path | .under | .parent | .case => folded ≠ []
  | .node => folded = [] ∨ (parseNode folded).isSome = true
  | .perm => folded = [] ∨ (parsePerm folded).isSome = true
  | .user => folded ≠ [] ↔ (resolveOwner R .uid v).isSome = true
  | .group => folded ≠ [] ↔ (resolveOwner R .gid v).isSome = true
  | .size | .dm | .dc | .da => ¬ ReadRange R now home f v
  | .depth | .len =>
      if rangeEnds v = [] then
        ((parseSizeValue R folded).isSome = true ↔
          (parseI64 (R.trim (splitCmp folded).2)).isSome = true)
      else ¬ ReadRange R now home f v
  | .startwith => folded ≠ [] ↔ Pattern R now home v
  | .endwith => folded ≠ [] ↔ '/' ∉ folded
  | .file | .folder | .kind | .content | .suid | .sgid | .sticky | .ww | .regex | .empty | .audio
  | .video | .pic | .doc | .exe | .zip => True

/-- No range is coloured as one size or one time. -/
theorem accepts_range {R : Reader} (hdots : ∀ t, Dotted t → R.parseF64 t = none) {f : FieldName}
    (hf : f.takes = .size ∨ f.takes = .time) {v : Text} (hrange : rangeEnds v ≠ []) (now : Int64) :
    accepts R f (DefaultFolder.fold R.case v) now = false := by
  have hdotted : Dotted (DefaultFolder.fold R.case v) := by
    obtain ⟨lo, hi, hd⟩ : ∃ lo hi, splitDots v = some (lo, hi) := by
      cases hd : splitDots v with
      | none =>
        unfold rangeEnds at hrange
        rw [hd] at hrange
        exact absurd rfl hrange
      | some r => exact ⟨r.1, r.2, rfl⟩
    have hfold : DefaultFolder.fold R.case "..".toList = "..".toList :=
      fold_of_lower R.case "..".toList (by decide)
    refine ⟨DefaultFolder.fold R.case lo, DefaultFolder.fold R.case hi, ?_⟩
    rw [splitDots_eq hd, show lo ++ '.' :: '.' :: hi = lo ++ "..".toList ++ hi by simp,
      DefaultFolder.fold_append, DefaultFolder.fold_append, hfold]
    rfl
  unfold accepts
  rcases hf with hf | hf
  · rw [hf, hdotted.parseSizeValue hdots]
    rfl
  · rw [hf, hdotted.parseTimeValue now]
    rfl

/-- What is usable and what is used, of a field that takes no range. -/
theorem used_eq {R : Reader} {now : Int64} {home : Option Text} {f : FieldName} {name v : Text}
    (h : Spelled R name f) (hv : ValueText R v) (hk : macroKind f = none) (hempty : f ≠ .empty)
    (hs : f ≠ .startwith) (he : f ≠ .endwith)
    (hrange : ¬ (f.takes = .size ∨ f.takes = .time) ∨ rangeEnds v = []) :
    used R now home f (name ++ ':' :: v) = (fieldMatch R now home f v).isSome := by
  apply used_alone h hv hs he
  by_cases hf : f.takes = .size ∨ f.takes = .time
  · rw [expandField_measured hf, if_pos (hrange.resolve_left (not_not.mpr hf))]
  · exact expandField_of_text hk hempty hs he hf _ _ _

theorem isSome_map_parseSize {R : Reader} (v : Text) :
    (parseSize R v).isSome = (parseSizeValue R v).isSome := by
  unfold parseSize parseSizeValue
  simp

theorem isSome_parseTime {R : Reader} {now : Int64} (f : TimeField) (v : Text) :
    (parseTime R f v now).isSome = (parseTimeValue R v now).isSome := by
  unfold parseTimeValue parseTime
  simp only
  split
  · rfl
  · split
    · rfl
    · cases parseIsoDate (R.trim (splitCmp v).2) <;> rfl

/-- Of a field of sizes or times the two agree on a value alone where its reader and the table do,
and on a range where one of its ends is not read. -/
theorem usable_measured {R : Reader} {now : Int64} {home : Option Text} {f : FieldName}
    {name v : Text} (hdots : ∀ t, Dotted t → R.parseF64 t = none) (h : Spelled R name f)
    (hv : ValueText R v) (hf : f.takes = .size ∨ f.takes = .time) :
    (Highlight.usable R (name ++ ':' :: v) now = used R now home f (name ++ ':' :: v)) ↔
      if rangeEnds v = [] then
        accepts R f (DefaultFolder.fold R.case v) now = (fieldMatch R now home f v).isSome
      else ¬ ReadRange R now home f v := by
  have hrest : macroKind f = none ∧ f ≠ .empty ∧ f ≠ .startwith ∧ f ≠ .endwith := by
    cases f <;> first | exact absurd hf (by decide) | decide
  obtain ⟨hk, hempty, hstart, hend⟩ := hrest
  rw [Highlight.usable_eq h hv]
  by_cases hrange : rangeEnds v = []
  · rw [used_eq h hv hk hempty hstart hend (Or.inr hrange), if_pos hrange]
  · rw [used_range h hv hf hrange, accepts_range hdots hf hrange, if_neg hrange, eq_comm,
      ← Bool.not_eq_true, List.all_eq_true]
    exact not_congr ⟨fun h => ⟨hrange, h⟩, And.right⟩

/-- A value of sizes or of times is no range where the two part. -/
theorem unread_range {R : Reader} {now : Int64} {home : Option Text} {f : FieldName} {v : Text} :
    (if rangeEnds v = [] then True else ¬ ReadRange R now home f v) ↔ ¬ ReadRange R now home f v := by
  by_cases hrange : rangeEnds v = []
  · rw [if_pos hrange, true_iff]
    exact fun h => h.1 hrange
  · rw [if_neg hrange]

/-- A value is coloured usable exactly when the parser uses it, exactly where the table of what the
field takes agrees with the field's own reader. -/
theorem usable_iff (R : Reader) (now : Int64) (home : Option Text) (f : FieldName) (name v : Text)
    (hdots : ∀ t, Dotted t → R.parseF64 t = none) (h : Spelled R name f) (hv : ValueText R v) :
    (Highlight.usable R (name ++ ':' :: v) now = used R now home f (name ++ ':' :: v)) ↔
      TableAgrees R now home f v := by
  have husable := Highlight.usable_eq h hv now
  have hne := hv.written
  have hnode : parseNode [] = none := by decide
  have hperm : parsePerm [] = none := by decide
  unfold TableAgrees
  cases f with
  | size | dm | dc | da =>
    rw [usable_measured hdots h hv (by decide), ← unread_range]
    simp [accepts, FieldName.takes, fieldMatch, isSome_map_parseSize, isSome_parseTime]
  | depth | len =>
    rw [usable_measured hdots h hv (by decide)]
    dsimp only
    by_cases hrange : rangeEnds v = []
    · rw [if_pos hrange, if_pos hrange, Bool.eq_iff_iff]
      simp [accepts, FieldName.takes, fieldMatch]
    · rw [if_neg hrange, if_neg hrange]
  | audio | video | pic | doc | exe | zip =>
    rw [husable, used_macro h hv rfl]
    simp [accepts, FieldName.takes]
  | empty =>
    rw [husable, used_empty h hv]
    simp [accepts, FieldName.takes]
  | startwith =>
    rw [husable, Bool.eq_iff_iff, used_startwith h hv]
    simp [accepts, FieldName.takes]
  | endwith =>
    rw [husable, used_endwith h hv]
    simp [accepts, FieldName.takes]
    tauto
  | node | perm =>
    rw [husable, used_eq h hv rfl (by decide) (by decide) (by decide) (Or.inl (by decide))]
    by_cases hfold : DefaultFolder.fold R.case v = [] <;>
      simp [accepts, FieldName.takes, fieldMatch, hfold, hnode, hperm]
  | _ =>
    rw [husable, used_eq h hv rfl (by decide) (by decide) (by decide) (Or.inl (by decide)),
      Bool.eq_iff_iff]
    simp [accepts, FieldName.takes, fieldMatch, hne]

theorem plain_dotted (t : Text) (h : Dotted t) : Reader.plain.parseF64 t = none :=
  parseI64_of_dot (h.subset List.mem_cons_self)

/-- A kind that has a name. -/
theorem usable_kind : (Highlight.usable .plain "kind:image".toList 0 =
    used .plain 0 none .kind "kind:image".toList) ↔ TableAgrees .plain 0 none .kind "image".toList :=
  usable_iff .plain 0 none .kind "kind".toList "image".toList plain_dotted
    ⟨by decide, by decide, by decide⟩ ⟨by decide, by decide⟩

/-- `node:zurna` is coloured as a value that can be used, and searched for as it was typed. -/
theorem not_usable : ¬ ∀ (R : Reader) (now : Int64) (home : Option Text) (f : FieldName)
    (name v : Text), (∀ t, Dotted t → R.parseF64 t = none) → Spelled R name f → ValueText R v →
      Highlight.usable R (name ++ ':' :: v) now = used R now home f (name ++ ':' :: v) := by
  intro h
  have := h .plain 0 none .node "node".toList "zurna".toList plain_dotted
    ⟨by decide, by decide, by decide⟩ ⟨by decide, by decide⟩
  revert this
  decide +kernel

end Scour
