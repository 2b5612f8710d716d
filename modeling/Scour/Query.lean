import Scour.Text

/-!
# What a query means, once the syntax is gone

`Ast` is groups ANDed together, a group alternatives ORed together, each with its own negation.  The
parser produces it and the index compiles it.  Numbers are the source's `i64`.
-/

namespace Scour

/-- A `String`, by its characters. -/
abbrev Text := List Char

/-- A test over the characters of a text looks at these, not at every `Char` there is. -/
instance (priority := 1100) decidableInText (p : Char → Prop) [DecidablePred p] (t : Text) :
    Decidable (∀ c ∈ t, p c) :=
  List.decidableBAll p t

/-- A comparison operator on a numeric or temporal field. -/
inductive Cmp where
  | lt | le | gt | ge | eq
deriving DecidableEq

def Cmp.holds (lhs rhs : Int) : Cmp → Bool
  | .lt => lhs < rhs
  | .le => lhs ≤ rhs
  | .gt => lhs > rhs
  | .ge => lhs ≥ rhs
  | .eq => lhs == rhs

inductive Kind where
  | file | dir | code | image | archive | doc | exec | media | audio | video | build | data | config
  | font
deriving DecidableEq

def Kind.asU8 : Kind → Nat
  | .file => 0
  | .dir => 1
  | .code => 2
  | .image => 3
  | .archive => 4
  | .doc => 5
  | .exec => 6
  | .media => 7
  | .audio => 8
  | .video => 9
  | .build => 10
  | .data => 11
  | .config => 12
  | .font => 13

theorem Kind.asU8_lt (k : Kind) : k.asU8 < 16 := by cases k <;> decide

/-- Which timestamp a temporal term is about. -/
inductive TimeField where
  | modified | created | accessed
deriving DecidableEq

/-- A column a query can ask a number about. -/
inductive NumField where
  | mode | uid | gid | items | disk
deriving DecidableEq

/-- One condition. -/
inductive Match where
  | nameContains (t : Text)
  | nameGlob (p : Text)
  | pathContains (t : Text)
  | under (d : Text)
  | parentIs (d : Text)
  | ext (list : List Text)
  | isDir (want : Bool)
  | size (cmp : Cmp) (v : Int64)
  | kind (k : List Kind)
  | time (f : TimeField) (cmp : Cmp) (v : Int64)
  | contentContains (t : Text)
  | depth (cmp : Cmp) (v : Int64)
  | regex (p : Text)
  | nameLen (cmp : Cmp) (v : Int64)
  | nameContainsCased (t : Text)
  | num (f : NumField) (cmp : Cmp) (v : Int64)
  | bits (field : NumField) (mask want : Int64) (any : Bool)
deriving DecidableEq

/-- Alternatives that are ORed together, each with its negation. -/
structure Group where
  alts : List (Bool × Match)
deriving DecidableEq

/-- A whole query: groups ANDed together. -/
structure Ast where
  groups : List Group
deriving DecidableEq

/-! ## Wildcards -/

/-- The loop of `glob_matches`, over what is left of the pattern and of the text.  `star` is where
to resume if the last `*` took too little: the pattern after it and the text it starts at.  `fuel`
bounds the rounds. -/
def globLoop : Nat → Text → Text → Option (Text × Text) → Bool
  | 0, _, _, _ => false
  -- trailing `*`s may still match the empty rest
  | _ + 1, p, [], _ => (p.dropWhile (· == '*')).isEmpty
  | fuel + 1, p, c :: t, star =>
      if p.head? = some '*' then globLoop fuel p.tail (c :: t) (some (p.tail, c :: t))
      else if p.head? = some '?' ∨ p.head? = some c then globLoop fuel p.tail t star
      else
        match star with
        -- give the last `*` one more character and try again
        | some (p', _ :: rest) => globLoop fuel p' rest (some (p', rest))
        | _ => false

/-- Does `text` match `pattern`, where `*` is any run and `?` is one character? -/
def globMatches (pattern text : Text) : Bool :=
  globLoop ((text.length + 1) * (pattern.length + 2) + pattern.length + 1) pattern text none

example : globMatches "a?c*".toList "abcd".toList = true := by decide

/-- The rounds a call can still take, over patterns of at most `n` characters. -/
def globRounds (n : Nat) (p t : Text) : Option (Text × Text) → Nat
  | none => (t.length + 1) * (n + 2) + p.length + 1
  | some (_, rest) => rest.length * (n + 2) + p.length + 1

section
variable {n : Nat} {p t : Text} {star : Option (Text × Text)}

/-- Taking a star leaves fewer rounds, -/
theorem globRounds_star {c d : Char} (hp : p.length < n + 1)
    (hstar : ∀ p' rest, star = some (p', rest) → (c :: t).length ≤ rest.length) :
    globRounds n p (c :: t) (some (p, c :: t)) < globRounds n (d :: p) (c :: t) star := by
  cases star with
  | none =>
    have := Nat.add_mul (t.length + 1) 1 (n + 2)
    simp only [globRounds, List.length_cons]
    omega
  | some s =>
    have h2 := hstar _ _ rfl
    have := Nat.mul_le_mul_right (n + 2) h2
    simp only [globRounds, List.length_cons] at this ⊢
    omega

/-- so does taking a character, -/
theorem globRounds_one {c d : Char} : globRounds n p t star < globRounds n (d :: p) (c :: t) star := by
  cases star with
  | none =>
    have := Nat.add_mul (t.length + 1) 1 (n + 2)
    simp only [globRounds, List.length_cons]
    omega
  | some s =>
    simp only [globRounds, List.length_cons]
    omega

/-- and so does giving the last star one more. -/
theorem globRounds_retry {q rest : Text} {d : Char} (hq : q.length ≤ n) :
    globRounds n q rest (some (q, rest)) < globRounds n p t (some (q, d :: rest)) := by
  have := Nat.add_mul rest.length 1 (n + 2)
  simp only [globRounds, List.length_cons]
  omega

end

/-- The loop ends before its fuel does. -/
theorem globLoop_fuel (n : Nat) (fuel : Nat) : ∀ (p t : Text) (star : Option (Text × Text)),
    p.length ≤ n → (∀ p' rest, star = some (p', rest) → p'.length ≤ n ∧ t.length ≤ rest.length) →
      globRounds n p t star ≤ fuel → globLoop fuel p t star = globLoop (fuel + 1) p t star := by
  induction fuel with
  | zero =>
    intro p t star _ _ h
    cases star <;> simp only [globRounds] at h <;> omega
  | succ fuel ih =>
    intro p t star hp hstar h
    -- every call made below takes fewer rounds than this one
    have hstep : ∀ (p' t' : Text) (star' : Option (Text × Text)), p'.length ≤ n →
        (∀ q rest, star' = some (q, rest) → q.length ≤ n ∧ t'.length ≤ rest.length) →
        globRounds n p' t' star' < globRounds n p t star →
        globLoop fuel p' t' star' = globLoop (fuel + 1) p' t' star' :=
      fun p' t' star' h1 h2 h3 => ih p' t' star' h1 h2 (by omega)
    cases t with
    | nil => rfl
    | cons c t =>
      unfold globLoop
      by_cases h1 : p.head? = some '*'
      · rw [if_pos h1, if_pos h1]
        cases p with
        | nil => cases h1
        | cons d p =>
          rw [List.length_cons] at hp
          apply hstep p _ _ (show p.length ≤ n by omega)
          · intro q rest hs
            cases hs
            exact ⟨show p.length ≤ n by omega, le_refl _⟩
          · exact globRounds_star (by omega) fun p' rest hs => (hstar p' rest hs).2
      · rw [if_neg h1, if_neg h1]
        by_cases h2 : p.head? = some '?' ∨ p.head? = some c
        · rw [if_pos h2, if_pos h2]
          cases p with
          | nil => rcases h2 with h2 | h2 <;> cases h2
          | cons d p =>
            rw [List.length_cons] at hp
            apply hstep p t star (show p.length ≤ n by omega)
            · intro q rest hs
              obtain ⟨h3, h4⟩ := hstar q rest hs
              rw [List.length_cons] at h4
              exact ⟨h3, by omega⟩
            · exact globRounds_one
        · rw [if_neg h2, if_neg h2]
          split
          · rename_i p' d rest
            obtain ⟨h3, -⟩ := hstar _ _ rfl
            apply hstep p' rest _ h3
            · intro q r hs
              cases hs
              exact ⟨h3, le_refl _⟩
            · exact globRounds_retry h3
          · rfl

/-- Any more fuel than `globMatches` gives changes nothing. -/
theorem globMatches_fuel (pattern text : Text) (k : Nat) :
    globMatches pattern text = globLoop
      ((text.length + 1) * (pattern.length + 2) + pattern.length + 1 + k) pattern text none := by
  induction k with
  | zero => rfl
  | succ k ih =>
    rw [ih]
    apply globLoop_fuel pattern.length _ pattern text none (le_refl _)
    · intro p' rest hs
      cases hs
    · simp only [globRounds]
      omega

/-- `p.split(['*', '?'])`. -/
def splitWild : Text → List Text
  | [] => [[]]
  | c :: p =>
      if c = '*' ∨ c = '?' then [] :: splitWild p
      else
        match splitWild p with
        | [] => [[c]]
        | run :: runs => (c :: run) :: runs

theorem splitWild_ne_nil (p : Text) : splitWild p ≠ [] := by
  cases p with
  | nil => simp [splitWild]
  | cons c p =>
    unfold splitWild
    split
    · simp
    · split <;> simp

/-- The pattern's first run starts the text, and every run is in it. -/
def RunsIn (p t : Text) : Prop :=
  (∀ run ∈ (splitWild p).head?, run <+: t) ∧ ∀ run ∈ splitWild p, run <:+: t

theorem RunsIn.cons_wild {c : Char} {p t : Text} (hc : c = '*' ∨ c = '?')
    (h : ∀ run ∈ splitWild p, run <:+: t) : RunsIn (c :: p) t := by
  unfold RunsIn splitWild
  rw [if_pos hc]
  refine ⟨fun run hr => ?_, fun run hr => ?_⟩
  · simp only [List.head?_cons, Option.mem_some_iff] at hr
    rw [← hr]
    exact List.nil_prefix
  · rcases List.mem_cons.mp hr with rfl | hr
    · exact List.nil_infix
    · exact h run hr

theorem RunsIn.cons_char {c : Char} {p t : Text} (hc : ¬ (c = '*' ∨ c = '?')) (h : RunsIn p t) :
    RunsIn (c :: p) (c :: t) := by
  obtain ⟨h1, h2⟩ := h
  unfold RunsIn splitWild
  rw [if_neg hc]
  cases hs : splitWild p with
  | nil => exact absurd hs (splitWild_ne_nil p)
  | cons run runs =>
    rw [hs] at h1 h2
    have hrun : c :: run <+: c :: t := by
      rw [List.cons_prefix_cons]
      exact ⟨rfl, h1 run (by simp)⟩
    refine ⟨fun r hr => ?_, fun r hr => ?_⟩
    · simp only [List.head?_cons, Option.mem_some_iff] at hr
      rwa [← hr]
    · rcases List.mem_cons.mp hr with rfl | hr
      · exact hrun.isInfix
      · exact (h2 r (List.mem_cons_of_mem _ hr)).trans (List.suffix_cons _ _).isInfix

theorem runsIn_nil (p : Text) (h : p.dropWhile (· == '*') = []) : RunsIn p [] := by
  induction p with
  | nil => exact ⟨by simp [splitWild], by simp [splitWild]⟩
  | cons c p ih =>
    rw [List.dropWhile_eq_nil_iff] at h
    have hc : c = '*' := by simpa using h c List.mem_cons_self
    apply RunsIn.cons_wild (Or.inl hc)
    exact (ih (List.dropWhile_eq_nil_iff.mpr fun x hx => h x (List.mem_cons_of_mem _ hx))).2

/-- What a pattern matches holds its runs: from here, or from where the last `*` resumes. -/
theorem globLoop_runs (fuel : Nat) : ∀ (p t : Text) (star : Option (Text × Text)),
    globLoop fuel p t star = true →
      RunsIn p t ∨ ∃ p' rest, star = some (p', rest) ∧ ∀ run ∈ splitWild p', run <:+: rest := by
  induction fuel with
  | zero =>
    intro p t star h
    cases h
  | succ fuel ih =>
    intro p t star h
    cases t with
    | nil => exact Or.inl (runsIn_nil p (List.isEmpty_iff.mp h))
    | cons c t =>
      unfold globLoop at h
      by_cases h1 : p.head? = some '*'
      · rw [if_pos h1] at h
        cases p with
        | nil => cases h1
        | cons d p =>
          left
          apply RunsIn.cons_wild (Or.inl (by simpa using h1))
          rcases ih _ _ _ h with h | ⟨p', rest, hs, h⟩
          · exact h.2
          · cases hs
            exact h
      · rw [if_neg h1] at h
        by_cases h2 : p.head? = some '?' ∨ p.head? = some c
        · rw [if_pos h2] at h
          cases p with
          | nil => rcases h2 with h2 | h2 <;> cases h2
          | cons d p =>
            rcases ih _ _ _ h with h | h
            · left
              by_cases hd : d = '?'
              · apply RunsIn.cons_wild (Or.inr hd)
                exact fun run hr => (h.2 run hr).trans (List.suffix_cons _ _).isInfix
              · obtain rfl : d = c := by simpa [hd] using h2
                apply RunsIn.cons_char _ h
                rintro (rfl | rfl)
                · exact h1 rfl
                · exact hd rfl
            · exact Or.inr h
        · rw [if_neg h2] at h
          split at h
          · rename_i p' d rest
            right
            refine ⟨p', d :: rest, rfl, fun run hr => ?_⟩
            have : run <:+: rest := by
              rcases ih _ _ _ h with h | ⟨q, r, hs, h⟩
              · exact h.2 run hr
              · cases hs
                exact h run hr
            exact this.trans (List.suffix_cons _ _).isInfix
          · cases h

theorem infix_of_globMatches {pattern text : Text} (h : globMatches pattern text = true) :
    ∀ run ∈ splitWild pattern, run <:+: text := by
  rcases globLoop_runs _ _ _ _ h with h | ⟨p', rest, hs, -⟩
  · exact h.2
  · cases hs

end Scour
