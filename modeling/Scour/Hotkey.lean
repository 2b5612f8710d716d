import Mathlib.Data.List.Sort
import Scour.Fields
import Scour.Saved

/-!
# A key combination in three spellings

`Key.parse` reads the neutral spelling that `Key.display` writes, `fromGnome` and `fromKde` read back
what `gnome` and `kde` write for the desktops.  All three end in `normalise`, which makes one spelling
of the key alone; GNOME's and KDE's are looked up in the tables first.

`survives_iff` says which of the keys that `parse` accepts are read back from all three.
-/

namespace Scour.Hotkey

open Search

/-! ## The code -/

/-- A modifier, in the order the neutral spelling writes them. -/
inductive Modifier where
  | super
  | ctrl
  | alt
  | shift
deriving DecidableEq

def Modifier.rank : Modifier → Nat
  | .super => 0
  | .ctrl => 1
  | .alt => 2
  | .shift => 3

/-- Modifiers, then one key. -/
structure Key where
  mods : List Modifier
  key : Text
deriving DecidableEq

inductive KeyError where
  | empty
  /-- Modifiers and nothing to press with them. -/
  | noKey
  | unknownModifier (name : Text)
  | onlyModifiers
deriving DecidableEq

/-- Punctuation as a character and as the X keysym GNOME writes. -/
def NAMED : List (Char × Text) :=
  [(' ', "space".toList), ('.', "period".toList), (',', "comma".toList), (';', "semicolon".toList),
   (':', "colon".toList), ('\'', "apostrophe".toList), ('"', "quotedbl".toList),
   ('/', "slash".toList), ('\\', "backslash".toList), ('-', "minus".toList), ('=', "equal".toList),
   ('+', "plus".toList), ('[', "bracketleft".toList), (']', "bracketright".toList),
   (Char.ofNat 0x60, "grave".toList), ('<', "less".toList), ('>', "greater".toList),
   ('*', "asterisk".toList), ('#', "numbersign".toList), ('!', "exclam".toList),
   ('?', "question".toList), ('@', "at".toList), ('&', "ampersand".toList), ('%', "percent".toList),
   ('$', "dollar".toList), ('^', "asciicircum".toList), ('~', "asciitilde".toList),
   ('|', "bar".toList), ('_', "underscore".toList), ('(', "parenleft".toList),
   (')', "parenright".toList), (Char.ofNat 0x7b, "braceleft".toList),
   (Char.ofNat 0x7d, "braceright".toList)]

/-- Keys with names: ours, GNOME's keysym, KDE's Qt name. -/
def SPECIAL : List (Text × Text × Text) :=
  [("space".toList, "space".toList, "Space".toList), ("tab".toList, "Tab".toList, "Tab".toList),
   ("return".toList, "Return".toList, "Return".toList),
   ("escape".toList, "Escape".toList, "Esc".toList),
   ("backspace".toList, "BackSpace".toList, "Backspace".toList),
   ("delete".toList, "Delete".toList, "Del".toList),
   ("insert".toList, "Insert".toList, "Ins".toList), ("home".toList, "Home".toList, "Home".toList),
   ("end".toList, "End".toList, "End".toList), ("pageup".toList, "Page_Up".toList, "PgUp".toList),
   ("pagedown".toList, "Page_Down".toList, "PgDown".toList), ("up".toList, "Up".toList, "Up".toList),
   ("down".toList, "Down".toList, "Down".toList), ("left".toList, "Left".toList, "Left".toList),
   ("right".toList, "Right".toList, "Right".toList),
   ("print".toList, "Print".toList, "Print".toList),
   ("pause".toList, "Pause".toList, "Pause".toList), ("menu".toList, "Menu".toList, "Menu".toList)]

/-- What a keyboard's letters need of Unicode: the two mappings of a character, and of the lowercase
one that only `İ` has two letters there and that what it gives is lowercase. -/
structure CaseMaps where
  /-- `char::to_lowercase` -/
  lower : Char → List Char
  /-- `char::to_uppercase` -/
  upper : Char → List Char
  lower_ascii : ∀ c, c.toNat < 128 → lower c = [c.toLower]
  upper_ascii : ∀ c, c.toNat < 128 → upper c = [c.toUpper]
  lower_one : ∀ c, lower c = [Char.ofNat 0x69, Char.ofNat 0x307] ∨ ∃ d, lower c = [d]
  lower_lower : ∀ c d, lower c = [d] → lower d = [d]
  upper_ne : ∀ c, upper c ≠ []
  /-- Beyond ASCII no character is mapped into it but to a letter, -/
  lower_letter : ∀ c, 128 ≤ c.toNat → ∀ d ∈ lower c, d.toNat < 128 → d.isAlpha
  upper_letter : ∀ c, 128 ≤ c.toNat → ∀ d ∈ upper c, d.toNat < 128 → d.isAlpha
  /-- and none to white space but itself. -/
  lower_space : ∀ c, ∀ d ∈ lower c, isWhiteSpace d = true → isWhiteSpace c = true
  upper_space : ∀ c, ∀ d ∈ upper c, isWhiteSpace d = true → isWhiteSpace c = true

/-- `str::trim` -/
def trim (t : Text) : Text := (t.dropWhile isWhiteSpace).rdropWhile isWhiteSpace

variable (C : CaseMaps)

/-- The key part in the neutral spelling, or `none` when there is nothing there. -/
def normalise (k : Text) : Option Text :=
  match trim k with
  | [] => none
  -- one character: a letter folds to lowercase, anything else is itself
  | [c] => some (if c = ' ' then "space".toList else C.lower c)
  | k =>
    let lower := k.map Char.toLower
    match stripPrefix ['f'] lower with
    | some n =>
      if n ≠ [] ∧ n.all Char.isDigit then some ('F' :: n) else some (named lower)
    | none => some (named lower)
where
  /-- A name of ours is itself; what people type for one is that one. -/
  named (lower : Text) : Text :=
    if SPECIAL.any (·.1 = lower) then lower
    else if lower = "enter".toList then "return".toList
    else if lower = "esc".toList then "escape".toList
    else if lower = "del".toList then "delete".toList
    else if lower = "ins".toList then "insert".toList
    else if lower = "pgup".toList then "pageup".toList
    else if lower = "pgdown".toList ∨ lower = "pgdn".toList then "pagedown".toList
    else lower

/-- Push a modifier that is not there yet. -/
def addMod (mods : List Modifier) (m : Modifier) : List Modifier :=
  if mods.contains m then mods else mods ++ [m]

/-- The loop over the names of the modifiers; a name that is none is the error. -/
def readMods (modifier : Text → Option Modifier) :
    List Modifier → List Text → Except Text (List Modifier)
  | mods, [] => .ok mods
  | mods, name :: names =>
    match modifier name with
    | some m => readMods modifier (addMod mods m) names
    | none => .error name

/-- `mods.sort()` -/
def sortMods (mods : List Modifier) : List Modifier :=
  mods.insertionSort fun a b => a.rank ≤ b.rank

/-- The modifiers and the key of a spelling with `+` between them: the last one separates the key,
`ctrl++` is Ctrl and the plus key, and a lone trailing one has nothing after it. -/
def splitKey (s : Text) : Option (Text × Text) :=
  match stripSuffix ['+', '+'] s with
  | some head => some (head, ['+'])
  | none =>
    if s.getLast? = some '+' then none
    else some ((s.rdropWhile (· ≠ '+')).dropLast, s.rtakeWhile (· ≠ '+'))

/-- The names between the `+`. -/
def modNames (part : Text) : List Text := (split '+' part).filter (· ≠ [])

def ourModifier (name : Text) : Option Modifier :=
  let name := name.map Char.toLower
  if name ∈ ["super".toList, "win".toList, "meta".toList, "cmd".toList, "mod4".toList] then some .super
  else if name ∈ ["ctrl".toList, "control".toList, "primary".toList] then some .ctrl
  else if name ∈ ["alt".toList, "option".toList, "mod1".toList] then some .alt
  else if name = "shift".toList then some .shift
  else none

def gnomeModifier (name : Text) : Option Modifier :=
  let name := name.map Char.toLower
  if name ∈ ["super".toList, "mod4".toList, "meta".toList, "hyper".toList] then some .super
  else if name ∈ ["control".toList, "ctrl".toList, "primary".toList] then some .ctrl
  else if name ∈ ["alt".toList, "mod1".toList] then some .alt
  else if name = "shift".toList then some .shift
  else none

def kdeModifier (name : Text) : Option Modifier :=
  if name ∈ ["Meta".toList, "Super".toList] then some .super
  else if name = "Ctrl".toList then some .ctrl
  else if name = "Alt".toList then some .alt
  else if name = "Shift".toList then some .shift
  else none

namespace Key

/-- Read the neutral spelling, case aside. -/
def parse (s : Text) : Except KeyError Key :=
  let s := trim s
  if s = [] then .error .empty
  else
    match splitKey s with
    | none => .error .noKey
    | some (modsPart, keyPart) =>
      match readMods ourModifier [] (modNames modsPart) with
      | .error name => .error (.unknownModifier (name.map Char.toLower))
      | .ok mods =>
        match normalise C keyPart with
        | none => .error .onlyModifiers
        | some key => .ok ⟨sortMods mods, key⟩

/-- The neutral spelling. -/
def display (k : Key) : Text :=
  k.mods.flatMap (fun
    | .super => "super+".toList
    | .ctrl => "ctrl+".toList
    | .alt => "alt+".toList
    | .shift => "shift+".toList) ++ k.key

def gnomeKey (k : Text) : Text :=
  match k with
  | [c] => ((NAMED.find? (·.1 = c)).map (·.2)).getD [c]
  | k => ((SPECIAL.find? (·.1 = k)).map (·.2.1)).getD k

def kdeKey (k : Text) : Text :=
  match k with
  | [c] => C.upper c
  | k => ((SPECIAL.find? (·.1 = k)).map (·.2.2)).getD k

/-- GNOME's spelling. -/
def gnome (k : Key) : Text :=
  k.mods.flatMap (fun
    | .super => "<Super>".toList
    | .ctrl => "<Control>".toList
    | .alt => "<Alt>".toList
    | .shift => "<Shift>".toList) ++ gnomeKey k.key

/-- KDE's spelling. -/
def kde (k : Key) : Text :=
  ['+'].intercalate
    (k.mods.map (fun
      | .super => "Meta".toList
      | .ctrl => "Ctrl".toList
      | .alt => "Alt".toList
      | .shift => "Shift".toList) ++ [kdeKey C k.key])

/-- The modifiers in front, and what is left; `none` for one that is not known. -/
def gnomeMods (mods : List Modifier) (rest : Text) : Option (List Modifier × Text) :=
  match rest with
  | '<' :: inner =>
    if '>' ∈ inner then
      match gnomeModifier (inner.takeWhile (· ≠ '>')) with
      | none => none
      | some m => gnomeMods (addMod mods m) (inner.dropWhile (· ≠ '>')).tail
    else some (mods, rest)
  | rest => some (mods, rest)
termination_by rest.length
decreasing_by
  have hdrop := (List.dropWhile_sublist (l := inner) (· ≠ '>')).length_le
  simp only [List.length_tail, List.length_cons]
  omega

/-- Read GNOME's spelling back. -/
def fromGnome (s : Text) : Option Key :=
  match gnomeMods [] (trim s) with
  | none => none
  | some (mods, rest) =>
    if rest = [] then none
    else
      -- a keysym name for punctuation, or a name from the table, or a key as is
      let key := (((NAMED.find? (·.2 = rest)).map fun e => [e.1]).or
        ((SPECIAL.find? (·.2.1 = rest)).map (·.1))).or (normalise C rest)
      key.map fun key => ⟨sortMods mods, key⟩

/-- Read KDE's spelling back. -/
def fromKde (s : Text) : Option Key :=
  let s := trim s
  if s = [] then none
  else
    match splitKey s with
    | none => none
    | some (modsPart, keyPart) =>
      match readMods kdeModifier [] (modNames modsPart) with
      | .error _ => none
      | .ok mods =>
        let key := ((SPECIAL.find? (·.2.2 = keyPart)).map (·.1)).or (normalise C keyPart)
        key.map fun key => ⟨sortMods mods, key⟩

end Key

/-! ## White space at the ends -/

/-- Nothing at either end for `trim` to take. -/
def Edged (t : Text) : Prop :=
  (∀ c ∈ t.head?, isWhiteSpace c = false) ∧ ∀ c ∈ t.getLast?, isWhiteSpace c = false

theorem Edged.trim {t : Text} (h : Edged t) : trim t = t := by
  have hdrop : t.dropWhile isWhiteSpace = t := by
    cases t with
    | nil => rfl
    | cons c t => rw [List.dropWhile_cons_of_neg (by simp [h.1 c rfl])]
  unfold Hotkey.trim
  rw [hdrop, List.rdropWhile_eq_self_iff]
  intro hl
  simp [h.2 _ (List.getLast?_eq_getLast_of_ne_nil hl)]

theorem edged_trim (t : Text) : Edged (trim t) := by
  unfold trim
  constructor
  · intro c hc
    obtain ⟨r, hr⟩ := List.rdropWhile_prefix isWhiteSpace (t.dropWhile isWhiteSpace)
    have hhead : (t.dropWhile isWhiteSpace).head? = some c := by
      rw [← hr, List.head?_append, hc]
      rfl
    have := List.head?_dropWhile_not isWhiteSpace t
    rw [hhead] at this
    simpa using this
  · intro c hc
    have hne : (t.dropWhile isWhiteSpace).rdropWhile isWhiteSpace ≠ [] := by
      intro h
      rw [h] at hc
      cases hc
    have hlast := List.rdropWhile_last_not isWhiteSpace (t.dropWhile isWhiteSpace) hne
    rw [List.getLast?_eq_getLast_of_ne_nil hne] at hc
    rw [← Option.some.inj hc]
    simpa using hlast

theorem edged_of_all {t : Text} (h : ∀ c ∈ t, isWhiteSpace c = false) : Edged t :=
  ⟨fun c hc => h c (List.mem_of_mem_head? hc), fun c hc => h c (List.mem_of_mem_getLast? hc)⟩

/-- Two pieces with clean ends, put together. -/
theorem Edged.append {a b : Text} (ha : Edged a) (hb : Edged b) : Edged (a ++ b) := by
  constructor
  · intro c hc
    cases a with
    | nil => exact hb.1 c hc
    | cons x a => exact ha.1 c hc
  · intro c hc
    rw [List.getLast?_append] at hc
    cases hl : b.getLast? with
    | none =>
      rw [hl] at hc
      exact ha.2 c hc
    | some d =>
      rw [hl] at hc
      exact hb.2 c (hl ▸ hc)

theorem mem_of_mem_trim {t : Text} {c : Char} (h : c ∈ trim t) : c ∈ t :=
  (List.dropWhile_sublist _).mem ((List.rdropWhile_prefix _ _).mem h)

theorem length_trim_le (t : Text) : (trim t).length ≤ t.length :=
  (List.rdropWhile_prefix _ _).length_le.trans (List.dropWhile_sublist _).length_le

theorem isWhiteSpace_toLower (c : Char) : isWhiteSpace c.toLower = isWhiteSpace c := by
  rcases toLower_cases c with h | ⟨h1, h2, h3⟩
  · rw [h]
  · have hlow : isWhiteSpace c.toLower = false := by
      unfold isWhiteSpace
      simp
      omega
    have hup : isWhiteSpace c = false := by
      unfold isWhiteSpace
      simp
      omega
    rw [hlow, hup]

theorem Edged.map_toLower {t : Text} (h : Edged t) : Edged (t.map Char.toLower) := by
  constructor
  · intro c hc
    rw [List.head?_map] at hc
    obtain ⟨d, hd, rfl⟩ := Option.map_eq_some_iff.mp hc
    rw [isWhiteSpace_toLower, h.1 d hd]
  · intro c hc
    rw [List.getLast?_map] at hc
    obtain ⟨d, hd, rfl⟩ := Option.map_eq_some_iff.mp hc
    rw [isWhiteSpace_toLower, h.2 d hd]

/-! ## Modifiers -/

/-- Each once, and in order. -/
def InRank (mods : List Modifier) : Prop := mods.Pairwise fun a b => a.rank < b.rank

theorem rank_injective : ∀ a b : Modifier, a.rank = b.rank → a = b := by
  intro a b h
  cases a <;> cases b <;> first | rfl | cases h

theorem InRank.nodup {mods : List Modifier} (h : InRank mods) : mods.Nodup :=
  h.imp fun hlt heq => by
    rw [heq] at hlt
    exact lt_irrefl _ hlt

theorem InRank.sortMods {mods : List Modifier} (h : InRank mods) : sortMods mods = mods :=
  List.Pairwise.insertionSort_eq (h.imp fun hlt => le_of_lt hlt)

theorem nodup_addMod {mods : List Modifier} (h : mods.Nodup) (m : Modifier) :
    (addMod mods m).Nodup := by
  unfold addMod
  split
  · exact h
  · rename_i hm
    rw [List.nodup_append]
    refine ⟨h, by simp, ?_⟩
    intro a ha b hb
    rw [List.mem_singleton.mp hb]
    rintro rfl
    exact hm (List.contains_iff_mem.mpr ha)

theorem nodup_readMods {modifier : Text → Option Modifier} {names : List Text} :
    ∀ {mods read : List Modifier}, mods.Nodup → readMods modifier mods names = .ok read →
      read.Nodup := by
  induction names with
  | nil =>
    intro mods read h hread
    cases hread
    exact h
  | cons name names ih =>
    intro mods read h hread
    unfold readMods at hread
    split at hread
    · exact ih (nodup_addMod h _) hread
    · cases hread

/-- Sorted, modifiers that differ are in order. -/
theorem inRank_sortMods {mods : List Modifier} (h : mods.Nodup) : InRank (sortMods mods) := by
  unfold sortMods
  have htotal : Std.Total fun a b : Modifier => a.rank ≤ b.rank := ⟨fun a b => le_total _ _⟩
  have htrans : IsTrans Modifier fun a b => a.rank ≤ b.rank := ⟨fun a b c => le_trans⟩
  have hsorted := List.pairwise_insertionSort (fun a b : Modifier => a.rank ≤ b.rank) mods
  have hnodup : (mods.insertionSort fun a b => a.rank ≤ b.rank).Nodup :=
    (List.perm_insertionSort _ mods).nodup_iff.mpr h
  exact hsorted.imp₂ (fun a b hle hne => lt_of_le_of_ne hle fun heq => hne (rank_injective a b heq))
    hnodup

/-- Names of modifiers that differ are read as these. -/
theorem readMods_names {modifier : Text → Option Modifier} {name : Modifier → Text}
    (hname : ∀ m, modifier (name m) = some m) (ms : List Modifier) :
    ∀ mods, (mods ++ ms).Nodup → readMods modifier mods (ms.map name) = .ok (mods ++ ms) := by
  induction ms with
  | nil =>
    intro mods _
    rw [List.append_nil]
    rfl
  | cons m ms ih =>
    intro mods h
    have hm : ¬ mods.contains m = true := by
      rw [List.contains_iff_mem]
      intro hmem
      exact (List.nodup_append.mp h).2.2 m hmem m List.mem_cons_self rfl
    rw [List.append_cons] at h
    rw [List.map_cons, readMods, hname]
    simp only [addMod, if_neg hm]
    rw [ih _ h, ← List.append_cons]

/-! ## Names between pluses -/

/-- Names with a plus between them. -/
def joined (names : List Text) : Text := ['+'].intercalate names

theorem joined_concat {names : List Text} (h : names ≠ []) (last : Text) :
    joined (names ++ [last]) = joined names ++ '+' :: last := by
  unfold joined
  rw [intercalate_append h (List.cons_ne_nil _ _), List.intercalate_singleton]
  simp

theorem modNames_joined {names : List Text} (h : ∀ n ∈ names, n ≠ [] ∧ '+' ∉ n) :
    modNames (joined names) = names := by
  have hself : names.filter (· ≠ []) = names := by
    rw [List.filter_eq_self]
    intro n hn
    simpa using (h n hn).1
  unfold modNames joined
  cases names with
  | nil => rfl
  | cons n rest =>
    rw [split_eq_splitOn, List.splitOn_intercalate '+' (fun n hn => (h n hn).2) (List.cons_ne_nil _ _)]
    exact hself

theorem not_suffix_plus {part : Text} (hplus : '+' ∉ part) (hne : part ≠ []) (pre : Text) :
    ¬ ['+', '+'] <:+ pre ++ part := by
  rintro ⟨r, hr⟩
  have hlast := congrArg List.getLast? hr
  rw [List.getLast?_append_of_ne_nil _ hne] at hlast
  have hmem : '+' ∈ part := by
    apply List.mem_of_mem_getLast?
    rw [← hlast]
    simp
  exact hplus hmem

/-- The key is what follows the last plus. -/
theorem splitKey_joined {names : List Text} {part : Text} (hplus : '+' ∉ part) (hne : part ≠ []) :
    splitKey (joined (names ++ [part])) = some (joined names, part) := by
  have hlast (pre : Text) : (pre ++ part).getLast? ≠ some '+' := by
    rw [List.getLast?_append_of_ne_nil _ hne]
    intro h
    exact hplus (List.mem_of_mem_getLast? h)
  have hall : ∀ c ∈ part, decide (c ≠ '+') = true := by
    intro c hc
    simp only [decide_eq_true_eq]
    rintro rfl
    exact hplus hc
  have hstrip (pre : Text) : stripSuffix ['+', '+'] (pre ++ part) = none :=
    if_neg (not_suffix_plus hplus hne pre)
  by_cases hnames : names = []
  · subst hnames
    have hpart : joined ([] ++ [part]) = [] ++ part := List.intercalate_singleton
    rw [hpart, splitKey, hstrip]
    simp only
    rw [if_neg (hlast [])]
    rw [List.nil_append]
    have hdrop : part.rdropWhile (· ≠ '+') = [] := List.rdropWhile_eq_nil_iff.mpr hall
    have htake : part.rtakeWhile (· ≠ '+') = part := List.rtakeWhile_eq_self_iff.mpr hall
    rw [hdrop, htake]
    rfl
  · rw [joined_concat hnames, List.append_cons, splitKey, hstrip]
    simp only
    rw [if_neg (hlast _)]
    have hrev : ∀ c ∈ part.reverse, decide (c ≠ '+') = true := fun c hc =>
      hall c (List.mem_reverse.mp hc)
    have hdrop : (joined names ++ ['+'] ++ part).rdropWhile (· ≠ '+') = joined names ++ ['+'] := by
      unfold List.rdropWhile
      rw [List.reverse_append, List.dropWhile_append_of_pos hrev]
      simp
    have htake : (joined names ++ ['+'] ++ part).rtakeWhile (· ≠ '+') = part := by
      unfold List.rtakeWhile
      rw [List.reverse_append, List.takeWhile_append_of_pos hrev]
      simp
    rw [hdrop, htake, List.dropLast_concat]

/-- The plus key has a plus before it. -/
theorem splitKey_plus {names : List Text} (h : names ≠ []) :
    splitKey (joined (names ++ [['+']])) = some (joined names, ['+']) := by
  have hstrip : stripSuffix ['+', '+'] (joined names ++ ['+', '+']) = some (joined names) := by
    unfold stripSuffix
    rw [if_pos (List.suffix_append _ _)]
    simp
  rw [joined_concat h, splitKey, hstrip]

/-- What stands before the last plus, and what follows it. -/
theorem splitKey_part {s head part : Text} (h : splitKey s = some (head, part)) :
    part = ['+'] ∨ '+' ∉ part := by
  unfold splitKey at h
  split at h
  · exact Or.inl (Prod.mk.inj (Option.some.inj h)).2.symm
  · split at h
    · cases h
    · right
      rw [← (Prod.mk.inj (Option.some.inj h)).2]
      intro hmem
      have := List.mem_rtakeWhile_imp hmem
      simp at this

/-! ## The key alone -/

theorem toLower_toLower (c : Char) : c.toLower.toLower = c.toLower := by
  rcases toLower_cases c.toLower with h | ⟨h1, h2, -⟩
  · exact h
  · rcases toLower_cases c with h | ⟨h3, h4, h5⟩
    · rw [h, h]
    · omega

theorem toLower_of_isDigit {c : Char} (h : c.isDigit = true) : c.toLower = c := by
  rcases toLower_cases c with hc | ⟨h1, -, -⟩
  · exact hc
  · simp only [Char.isDigit, Bool.and_eq_true, decide_eq_true_eq] at h
    have h57 : c.toNat ≤ 57 := UInt32.le_iff_toNat_le.mp h.2
    omega

theorem isWhiteSpace_of_isDigit {c : Char} (h : c.isDigit = true) : isWhiteSpace c = false := by
  simp only [Char.isDigit, Bool.and_eq_true, decide_eq_true_eq] at h
  have h48 : 48 ≤ c.toNat := UInt32.le_iff_toNat_le.mp h.1
  have h57 : c.toNat ≤ 57 := UInt32.le_iff_toNat_le.mp h.2
  unfold isWhiteSpace
  simp
  omega

theorem toUpper_cases (c : Char) : c.toUpper = c ∨
    (97 ≤ c.toNat ∧ c.toNat ≤ 122 ∧ c.toUpper.toNat = c.toNat - 32) := by
  unfold Char.toUpper
  split
  · rename_i hc
    right
    have h1 := UInt32.le_iff_toNat_le.mp hc.1
    have h2 := UInt32.le_iff_toNat_le.mp hc.2
    have h3 : (c.val + ('A'.val - 'a'.val)).toNat = c.val.toNat - 32 := by
      rw [UInt32.toNat_add]
      simp at h1 h2 ⊢
      omega
    refine ⟨?_, ?_, h3⟩
    · simpa using h1
    · simpa using h2
  · exact Or.inl rfl

theorem toUpper_of_le {c : Char} (h : 128 ≤ c.toNat) : c.toUpper = c := by
  rcases toUpper_cases c with hc | ⟨-, h2, -⟩
  · exact hc
  · omega

theorem eq_plus_of_toLower {c : Char} (h : c.toLower = '+') : c = '+' := by
  rcases toLower_cases c with hc | ⟨h1, -, h3⟩
  · rw [← hc, h]
  · rw [h] at h3
    have : ('+' : Char).toNat = 43 := rfl
    omega

/-- Our names are words, which no reading takes apart. -/
theorem special_words : ∀ e ∈ SPECIAL, 2 ≤ e.1.length ∧ (∀ c ∈ e.1, isWhiteSpace c = false) ∧
    '+' ∉ e.1 ∧ '<' ∉ e.1 ∧ e.1.map Char.toLower = e.1 := by
  decide +kernel

theorem named_of_special {t : Text} (h : t ∈ SPECIAL.map Prod.fst) : normalise.named t = t := by
  unfold normalise.named
  rw [if_pos]
  rw [List.any_eq_true]
  obtain ⟨e, he, rfl⟩ := List.mem_map.mp h
  exact ⟨e, he, by simp⟩

theorem named_cases (t : Text) :
    normalise.named t = t ∨ normalise.named t ∈ SPECIAL.map Prod.fst := by
  unfold normalise.named
  split
  · exact Or.inl rfl
  split
  · exact Or.inr (by decide)
  split
  · exact Or.inr (by decide)
  split
  · exact Or.inr (by decide)
  split
  · exact Or.inr (by decide)
  split
  · exact Or.inr (by decide)
  split
  · exact Or.inr (by decide)
  · exact Or.inl rfl

variable {C}

/-- A spelling of a function key. -/
def functionKey (lower : Text) : Option Text :=
  match stripPrefix ['f'] lower with
  | some n => if n ≠ [] ∧ n.all Char.isDigit then some ('F' :: n) else none
  | none => none

/-- A key of more than one character: a function key, or a word. -/
theorem normalise_word {k : Text} (h : 2 ≤ (trim k).length) :
    normalise C k = some ((functionKey ((trim k).map Char.toLower)).getD
      (normalise.named ((trim k).map Char.toLower))) := by
  unfold normalise functionKey
  generalize trim k = t at h
  match t, h with
  | a :: b :: t, _ =>
    simp only
    split
    · split
      · rfl
      · rfl
    · rfl

theorem normalise_one {k : Text} {c : Char} (h : trim k = [c]) :
    normalise C k = some (if c = ' ' then "space".toList else C.lower c) := by
  unfold normalise
  rw [h]

theorem functionKey_eq {lower key : Text} (h : functionKey lower = some key) :
    ∃ n, key = 'F' :: n ∧ n ≠ [] ∧ n.all Char.isDigit = true := by
  unfold functionKey at h
  split at h
  · rename_i n _
    split at h
    · rename_i hn
      exact ⟨n, (Option.some.inj h).symm, hn.1, hn.2⟩
    · cases h
  · cases h

/-- What `parse` gives of a key. -/
structure Settled (C : CaseMaps) (key : Text) : Prop where
  ne : key ≠ []
  fixed : normalise C key = some key
  edged : Edged key
  plus : '+' ∈ key → key = ['+']
  /-- No capital of ASCII, but in the name of a function key. -/
  cased : 2 ≤ key.length → key.map Char.toLower = key ∨ ∃ n, key = 'F' :: n ∧ n.all Char.isDigit = true

theorem settled_functionKey {n : Text} (hne : n ≠ []) (h : n.all Char.isDigit = true) :
    Settled C ('F' :: n) := by
  have hdigit : ∀ c ∈ n, c.isDigit = true := List.all_eq_true.mp h
  have hedged : Edged ('F' :: n) := by
    apply edged_of_all
    intro c hc
    rcases List.mem_cons.mp hc with rfl | hc
    · decide
    · exact isWhiteSpace_of_isDigit (hdigit c hc)
  have hlower : n.map Char.toLower = n := by
    conv_rhs => rw [← List.map_id n]
    exact List.map_congr_left fun c hc => toLower_of_isDigit (hdigit c hc)
  have hlength : 2 ≤ ('F' :: n).length := by
    have := List.length_pos_iff.mpr hne
    simp only [List.length_cons]
    omega
  refine ⟨List.cons_ne_nil _ _, ?_, hedged, ?_, fun _ => Or.inr ⟨n, rfl, h⟩⟩
  · rw [normalise_word (by rw [hedged.trim]; exact hlength), hedged.trim, List.map_cons, hlower]
    have hf : functionKey ('F'.toLower :: n) = some ('F' :: n) := by
      unfold functionKey stripPrefix
      rw [if_pos (by simp [show 'F'.toLower = 'f' by decide])]
      simp [hne, h]
    rw [hf]
    rfl
  · intro hmem
    rcases List.mem_cons.mp hmem with h | h
    · exact absurd h (by decide)
    · exact absurd (hdigit _ h) (by decide)

theorem settled_special {t : Text} (h : t ∈ SPECIAL.map Prod.fst) : Settled C t := by
  obtain ⟨e, he, rfl⟩ := List.mem_map.mp h
  obtain ⟨hlen, hspace, hplus, -, hlower⟩ := special_words e he
  have hedged := edged_of_all hspace
  have hnone : functionKey e.1 = none := by
    have : ∀ e ∈ SPECIAL, functionKey e.1 = none := by decide
    exact this e he
  refine ⟨?_, ?_, hedged, fun hmem => absurd hmem hplus, fun _ => Or.inl hlower⟩
  · rintro h
    simp [h] at hlen
  · rw [normalise_word (by rw [hedged.trim]; exact hlen), hedged.trim, hlower, hnone,
      named_of_special h]
    rfl

/-- What `normalise` makes of a key part is settled, if a plus is not in it with something else. -/
theorem settled_of_normalise {k key : Text} (h : normalise C k = some key)
    (hplus : k = ['+'] ∨ '+' ∉ k) : Settled C key := by
  have hedged := edged_trim k
  cases ht : trim k with
  | nil =>
    unfold normalise at h
    rw [ht] at h
    cases h
  | cons a t =>
    cases t with
    | nil =>
      have hspace : isWhiteSpace a = false := by
        rw [ht] at hedged
        exact hedged.1 a rfl
      have hne : a ≠ ' ' := by
        rintro rfl
        exact absurd hspace (by decide)
      rw [normalise_one ht, if_neg hne] at h
      obtain rfl := Option.some.inj h
      have hspaces : ∀ d ∈ C.lower a, isWhiteSpace d = false := by
        intro d hd
        by_contra hws
        rw [C.lower_space a d hd (by simpa using hws)] at hspace
        cases hspace
      rcases C.lower_one a with hi | ⟨d, hd⟩
      · rw [hi]
        have hone : trim [Char.ofNat 0x69, Char.ofNat 0x307] = [Char.ofNat 0x69, Char.ofNat 0x307] := by
          decide
        refine ⟨List.cons_ne_nil _ _, ?_, hi ▸ edged_of_all hspaces, ?_, fun _ => Or.inl (by decide)⟩
        · rw [normalise_word (by rw [hone]; decide), hone]
          decide
        · intro hmem
          exact absurd hmem (by decide)
      · rw [hd] at hspaces ⊢
        have hedged := edged_of_all hspaces
        have hd' : d ≠ ' ' := by
          rintro rfl
          exact absurd (hspaces ' ' List.mem_cons_self) (by decide)
        refine ⟨List.cons_ne_nil _ _, ?_, hedged, ?_, fun hlen => by simp at hlen⟩
        · rw [normalise_one hedged.trim, if_neg hd', C.lower_lower a d hd]
        · intro hmem
          rw [← List.mem_singleton.mp hmem]
    | cons b t =>
      have hlen : 2 ≤ (trim k).length := by
        rw [ht]
        simp
      rw [normalise_word hlen] at h
      cases hf : functionKey ((trim k).map Char.toLower) with
      | some word =>
        rw [hf] at h
        obtain rfl := Option.some.inj h
        obtain ⟨n, hn, hne, hall⟩ := functionKey_eq hf
        rw [Option.getD_some, hn]
        exact settled_functionKey hne hall
      | none =>
        rw [hf] at h
        obtain rfl := Option.some.inj h
        rw [Option.getD_none]
        rcases named_cases ((trim k).map Char.toLower) with hsame | hspecial
        · rw [hsame]
          have hlow : ((trim k).map Char.toLower).map Char.toLower = (trim k).map Char.toLower := by
            rw [List.map_map]
            exact List.map_congr_left fun c _ => toLower_toLower c
          have hedged' := hedged.map_toLower
          refine ⟨by simp [ht], ?_, hedged', ?_, fun _ => Or.inl hlow⟩
          · rw [normalise_word (by rw [hedged'.trim, List.length_map]; exact hlen), hedged'.trim,
              hlow, hf, hsame]
            rfl
          · intro hmem
            obtain ⟨c, hc, hlower⟩ := List.mem_map.mp hmem
            have hck := mem_of_mem_trim hc
            rw [eq_plus_of_toLower hlower] at hck
            rcases hplus with rfl | hplus
            · exact absurd hlen (by decide)
            · exact absurd hck hplus
        · exact settled_special hspecial

/-! ## The spellings with pluses -/

def ourName : Modifier → Text
  | .super => "super".toList
  | .ctrl => "ctrl".toList
  | .alt => "alt".toList
  | .shift => "shift".toList

def kdeName : Modifier → Text
  | .super => "Meta".toList
  | .ctrl => "Ctrl".toList
  | .alt => "Alt".toList
  | .shift => "Shift".toList

/-- What a name of a modifier is like, so that a row of them is read back. -/
structure Names (modifier : Text → Option Modifier) (name : Modifier → Text) : Prop where
  read : ∀ m, modifier (name m) = some m
  piece : ∀ m, name m ≠ [] ∧ '+' ∉ name m
  edged : ∀ m, Edged (name m)

theorem ourNames : Names ourModifier ourName where
  read m := by cases m <;> decide
  piece m := by cases m <;> decide
  edged m := by
    apply edged_of_all
    cases m <;> decide

theorem kdeNames : Names kdeModifier kdeName where
  read m := by cases m <;> decide
  piece m := by cases m <;> decide
  edged m := by
    apply edged_of_all
    cases m <;> decide

theorem joined_cons (n : Text) {names : List Text} (h : names ≠ []) :
    joined (n :: names) = n ++ '+' :: joined names := by
  unfold joined
  rw [List.intercalate_cons_of_ne_nil h]
  simp

theorem display_eq (k : Key) : k.display = joined (k.mods.map ourName ++ [k.key]) := by
  obtain ⟨mods, key⟩ := k
  unfold Key.display
  simp only
  induction mods with
  | nil => exact List.intercalate_singleton.symm
  | cons m mods ih =>
    rw [List.flatMap_cons, List.append_assoc, ih, List.map_cons, List.cons_append,
      joined_cons _ (by simp)]
    cases m <;> rfl

theorem kde_eq (k : Key) : k.kde C = joined (k.mods.map kdeName ++ [Key.kdeKey C k.key]) := by
  unfold Key.kde joined
  congr 3

theorem edged_joined {names : List Text} (h : ∀ n ∈ names, Edged n) : Edged (joined names) := by
  have hplus : Edged ['+'] := edged_of_all (by decide)
  induction names with
  | nil => exact ⟨by simp [joined], by simp [joined]⟩
  | cons n names ih =>
    by_cases hnames : names = []
    · subst hnames
      show Edged (joined [n])
      rw [joined, List.intercalate_singleton]
      exact h n List.mem_cons_self
    · rw [joined_cons n hnames, ← List.singleton_append]
      exact (h n List.mem_cons_self).append
        (hplus.append (ih fun m hm => h m (List.mem_cons_of_mem _ hm)))

theorem Names.edged_joined {modifier : Text → Option Modifier} {name : Modifier → Text}
    (hn : Names modifier name) (mods : List Modifier) {part : Text} (h : Edged part) :
    Edged (joined (mods.map name ++ [part])) := by
  apply Hotkey.edged_joined
  intro n hmem
  rcases List.mem_append.mp hmem with hmem | hmem
  · obtain ⟨m, -, rfl⟩ := List.mem_map.mp hmem
    exact hn.edged m
  · rw [List.mem_singleton.mp hmem]
    exact h

/-- A row of modifiers that differ is read back. -/
theorem Names.readMods {modifier : Text → Option Modifier} {name : Modifier → Text}
    (hn : Names modifier name) {mods : List Modifier} (h : InRank mods) :
    Hotkey.readMods modifier [] (modNames (joined (mods.map name))) = .ok mods := by
  rw [modNames_joined fun n hmem => by
    obtain ⟨m, -, rfl⟩ := List.mem_map.mp hmem
    exact hn.piece m]
  exact readMods_names hn.read mods [] h.nodup

theorem joined_ne_nil (names : List Text) {part : Text} (h : part ≠ []) :
    joined (names ++ [part]) ≠ [] := by
  by_cases hnames : names = []
  · subst hnames
    show joined [part] ≠ []
    rwa [joined, List.intercalate_singleton]
  · rw [joined_concat hnames]
    simp

/-- The pieces of a spelling with pluses: none where the plus key stands alone. -/
theorem splitKey_spelled {modifier : Text → Option Modifier} {name : Modifier → Text}
    (_ : Names modifier name) (mods : List Modifier) {part : Text} (hne : part ≠ [])
    (hplus : '+' ∈ part → part = ['+']) :
    splitKey (joined (mods.map name ++ [part])) =
      if mods = [] ∧ part = ['+'] then none else some (joined (mods.map name), part) := by
  by_cases hmem : '+' ∈ part
  · obtain rfl := hplus hmem
    by_cases hmods : mods = []
    · subst hmods
      rw [if_pos ⟨rfl, rfl⟩]
      show splitKey ['+'] = none
      decide
    · rw [if_neg (fun h => hmods h.1)]
      exact splitKey_plus (by simpa using hmods)
  · rw [if_neg (fun h => hmem (by rw [h.2]; exact List.mem_cons_self))]
    exact splitKey_joined hmem hne

/-- The neutral spelling is read back, but for the plus key alone. -/
theorem parse_display_iff {k : Key} (hmods : InRank k.mods) (hkey : Settled C k.key) :
    Key.parse C k.display = .ok k ↔ ¬ (k.mods = [] ∧ k.key = ['+']) := by
  have hedged := ourNames.edged_joined k.mods hkey.edged
  have hne : joined (k.mods.map ourName ++ [k.key]) ≠ [] := joined_ne_nil _ hkey.ne
  rw [display_eq]
  unfold Key.parse
  simp only [hedged.trim, if_neg hne, splitKey_spelled ourNames k.mods hkey.ne hkey.plus]
  by_cases hplus : k.mods = [] ∧ k.key = ['+']
  · rw [if_pos hplus]
    simp [hplus]
  · rw [if_neg hplus]
    simp only [ourNames.readMods hmods, hkey.fixed, hmods.sortMods]
    simp [hplus]

/-! ### KDE's -/

/-- Qt's names are no one else's, and no reading takes them apart. -/
theorem qt_words : ∀ e ∈ SPECIAL, (SPECIAL.find? (·.1 = e.1)).map (·.2.2) = some e.2.2 ∧
    (SPECIAL.find? (·.2.2 = e.2.2)).map (·.1) = some e.1 ∧ 2 ≤ e.2.2.length ∧ '+' ∉ e.2.2 ∧
    ∀ c ∈ e.2.2, isWhiteSpace c = false := by
  decide +kernel

theorem capital_words : ∀ e ∈ SPECIAL, e.2.2.map Char.toLower ≠ e.2.2 ∧
    (e.2.1 = e.1 ∨ e.2.1.map Char.toLower ≠ e.2.1) ∧
    ∀ w ∈ [e.2.1, e.2.2], ¬ (w.head? = some 'F' ∧ w.tail.all Char.isDigit = true) := by
  decide +kernel

/-- A settled word that is no name of ours is none of Qt's. -/
theorem find_qt {key : Text} (hkey : Settled C key) (hlen : 2 ≤ key.length) :
    SPECIAL.find? (·.2.2 = key) = none := by
  rw [List.find?_eq_none]
  intro e he heq
  obtain ⟨hcapital, -, hdigits⟩ := capital_words e he
  have hqt : e.2.2 = key := by simpa using heq
  rcases hkey.cased hlen with hlower | ⟨n, hn, hall⟩
  · rw [← hqt] at hlower
    exact hcapital hlower
  · refine hdigits e.2.2 (by simp) ?_
    rw [hqt, hn]
    exact ⟨rfl, hall⟩

theorem upper_facts {c : Char} (hspace : isWhiteSpace c = false) :
    Edged (C.upper c) ∧ ('+' ∈ C.upper c → C.upper c = ['+']) := by
  constructor
  · apply edged_of_all
    intro d hd
    by_contra hws
    rw [C.upper_space c d hd (by simpa using hws)] at hspace
    cases hspace
  · intro hmem
    by_cases hascii : c.toNat < 128
    · rw [C.upper_ascii c hascii] at hmem ⊢
      rw [List.mem_singleton.mp hmem]
    · exact absurd (C.upper_letter c (by omega) '+' hmem (by decide)) (by decide)

/-- A word becomes a word. -/
theorem length_normalise {k key : Text} (h : normalise C k = some key) (hlen : 2 ≤ (trim k).length) :
    2 ≤ key.length := by
  rw [normalise_word hlen] at h
  obtain rfl := Option.some.inj h
  cases hf : functionKey ((trim k).map Char.toLower) with
  | some word =>
    obtain ⟨n, hn, hne, -⟩ := functionKey_eq hf
    have := List.length_pos_iff.mpr hne
    rw [Option.getD_some, hn, List.length_cons]
    omega
  | none =>
    rw [Option.getD_none]
    rcases named_cases ((trim k).map Char.toLower) with hsame | hspecial
    · rw [hsame, List.length_map]
      exact hlen
    · obtain ⟨e, he, heq⟩ := List.mem_map.mp hspecial
      rw [← heq]
      exact (special_words e he).1

/-- KDE's spelling is read back where the letter's capital is one character that folds to it. -/
theorem fromKde_kde_iff {k : Key} (hmods : InRank k.mods) (hkey : Settled C k.key) :
    Key.fromKde C (k.kde C) = some k ↔ ¬ (k.mods = [] ∧ k.key = ['+']) ∧
      ∀ c, k.key = [c] → ∃ d, C.upper c = [d] ∧ C.lower d = [c] := by
  -- what is read of a part that is not the plus key alone
  have hread {part : Text} (hne : part ≠ []) (hedged : Edged part)
      (hplus : '+' ∈ part → part = ['+']) (halone : ¬ (k.mods = [] ∧ part = ['+'])) :
      Key.fromKde C (joined (k.mods.map kdeName ++ [part])) =
        (((SPECIAL.find? (·.2.2 = part)).map (·.1)).or (normalise C part)).map fun key =>
          ⟨k.mods, key⟩ := by
    have htrim := (kdeNames.edged_joined k.mods hedged).trim
    have hsome : joined (k.mods.map kdeName ++ [part]) ≠ [] := joined_ne_nil _ hne
    unfold Key.fromKde
    simp only [htrim, if_neg hsome, splitKey_spelled kdeNames k.mods hne hplus, if_neg halone,
      kdeNames.readMods hmods, hmods.sortMods]
  obtain ⟨mods, key⟩ := k
  simp only at hmods hkey hread ⊢
  rw [kde_eq]
  simp only
  match key, hkey with
  | [], hkey => exact absurd rfl hkey.ne
  | [c], hkey =>
    have hspace := hkey.edged.1 c rfl
    have hblank : ∀ d ∈ C.upper c, d ≠ ' ' := by
      rintro d hd rfl
      rw [C.upper_space c ' ' hd (by decide)] at hspace
      cases hspace
    obtain ⟨hedged, hplus⟩ := upper_facts (C := C) hspace
    show Key.fromKde C (joined (mods.map kdeName ++ [C.upper c])) = _ ↔ _
    by_cases halone : mods = [] ∧ C.upper c = ['+']
    · -- then the key is the plus key itself, or its capital folds to something else
      have hnone : Key.fromKde C (joined (mods.map kdeName ++ [C.upper c])) = none := by
        obtain ⟨rfl, hupper⟩ := halone
        rw [hupper]
        rfl
      rw [hnone]
      constructor
      · rintro ⟨⟩
      · rintro ⟨hkeep, hletter⟩
        obtain ⟨d, hd, hlower⟩ := hletter c rfl
        rw [halone.2] at hd
        obtain rfl := (List.cons.inj hd).1
        rw [C.lower_ascii '+' (by decide)] at hlower
        exact absurd ⟨halone.1, hlower.symm.trans (by decide)⟩ hkeep
    · rw [hread (C.upper_ne c) hedged hplus halone]
      have hkeep : ¬ (mods = [] ∧ [c] = ['+']) := by
        rintro ⟨hmods, hc⟩
        obtain rfl := (List.cons.inj hc).1
        exact halone ⟨hmods, C.upper_ascii '+' (by decide)⟩
      constructor
      · intro h
        refine ⟨hkeep, fun c' hc' => ?_⟩
        obtain rfl := (List.cons.inj hc').1
        obtain ⟨key, hkey', hk⟩ := Option.map_eq_some_iff.mp h
        have hkc : key = [c] := congrArg Key.key hk
        rw [hkc] at hkey'
        rcases hu : C.upper c with _ | ⟨d, _ | ⟨e, rest⟩⟩
        · exact absurd hu (C.upper_ne c)
        · refine ⟨d, rfl, ?_⟩
          rw [hu] at hkey' hblank hedged
          have hfind : SPECIAL.find? (·.2.2 = [d]) = none := by
            rw [List.find?_eq_none]
            intro e he heq
            have hlen := (qt_words e he).2.2.1
            rw [show e.2.2 = [d] by simpa using heq] at hlen
            simp at hlen
          rw [hfind, Option.map_none, Option.none_or, normalise_one hedged.trim,
            if_neg (hblank d List.mem_cons_self)] at hkey'
          exact Option.some.inj hkey'
        · exfalso
          rw [hu] at hkey' hedged
          cases hfind : SPECIAL.find? (·.2.2 = d :: e :: rest) with
          | some w =>
            rw [hfind] at hkey'
            have hlen := (special_words w (List.mem_of_find?_eq_some hfind)).1
            rw [show w.1 = [c] from Option.some.inj hkey'] at hlen
            simp at hlen
          | none =>
            rw [hfind, Option.map_none, Option.none_or] at hkey'
            have hlen := length_normalise hkey' (by rw [hedged.trim]; simp)
            simp at hlen
      · rintro ⟨-, hletter⟩
        obtain ⟨d, hd, hlower⟩ := hletter c rfl
        rw [hd] at hblank hedged ⊢
        have hfind : SPECIAL.find? (·.2.2 = [d]) = none := by
          rw [List.find?_eq_none]
          intro e he heq
          have hlen := (qt_words e he).2.2.1
          rw [show e.2.2 = [d] by simpa using heq] at hlen
          simp at hlen
        rw [hfind, Option.map_none, Option.none_or, normalise_one hedged.trim,
          if_neg (hblank d List.mem_cons_self), hlower]
        rfl
  | a :: b :: rest, hkey =>
    have hlen : 2 ≤ (a :: b :: rest).length := by simp
    have hnot : (a :: b :: rest) ≠ ['+'] := by simp
    have hright : ¬ (mods = [] ∧ (a :: b :: rest) = ['+']) ∧
        ∀ c, (a :: b :: rest) = [c] → ∃ d, C.upper c = [d] ∧ C.lower d = [c] :=
      ⟨fun h => hnot h.2, fun c hc => by simp at hc⟩
    refine iff_of_true ?_ hright
    show Key.fromKde C (joined (mods.map kdeName ++
      [((SPECIAL.find? (·.1 = a :: b :: rest)).map (·.2.2)).getD (a :: b :: rest)])) = _
    cases hfind : SPECIAL.find? (·.1 = a :: b :: rest) with
    | none =>
      rw [Option.map_none, Option.getD_none, hread hkey.ne hkey.edged hkey.plus fun h => hnot h.2,
        find_qt hkey hlen, Option.map_none, Option.none_or, hkey.fixed]
      rfl
    | some e =>
      have he := List.mem_of_find?_eq_some hfind
      have hours : e.1 = a :: b :: rest := by simpa using List.find?_some hfind
      obtain ⟨-, hback, hqlen, hqplus, hqspace⟩ := qt_words e he
      have hqne : e.2.2 ≠ [] := by
        intro h
        simp [h] at hqlen
      have hqnot : ¬ (mods = [] ∧ e.2.2 = ['+']) := by
        rintro ⟨-, h⟩
        simp [h] at hqlen
      rw [Option.map_some, Option.getD_some,
        hread hqne (edged_of_all hqspace) (fun h => absurd h hqplus) hqnot, hback, ← hours]
      rfl

/-! ## GNOME's spelling -/

def gnomeName : Modifier → Text
  | .super => "Super".toList
  | .ctrl => "Control".toList
  | .alt => "Alt".toList
  | .shift => "Shift".toList

def bracketed (m : Modifier) : Text := '<' :: (gnomeName m ++ ['>'])

theorem gnome_eq (k : Key) : k.gnome = k.mods.flatMap bracketed ++ Key.gnomeKey k.key := by
  unfold Key.gnome
  congr 2
  funext m
  cases m <;> rfl

theorem gnomeNames : ∀ m, gnomeModifier (gnomeName m) = some m ∧ '>' ∉ gnomeName m ∧
    ∀ c ∈ bracketed m, isWhiteSpace c = false := by
  intro m
  cases m <;> decide

theorem gnomeMods_bracket (mods : List Modifier) {name : Text} (hname : '>' ∉ name) (rest : Text) :
    Key.gnomeMods mods ('<' :: (name ++ '>' :: rest)) =
      match gnomeModifier name with
      | none => none
      | some m => Key.gnomeMods (addMod mods m) rest := by
  have hall : ∀ c ∈ name, decide (c ≠ '>') = true := by
    intro c hc
    simp only [decide_eq_true_eq]
    rintro rfl
    exact hname hc
  have htake : (name ++ '>' :: rest).takeWhile (· ≠ '>') = name := by
    rw [List.takeWhile_append_of_pos hall]
    simp
  have hdrop : (name ++ '>' :: rest).dropWhile (· ≠ '>') = '>' :: rest := by
    rw [List.dropWhile_append_of_pos hall]
    simp
  rw [Key.gnomeMods, if_pos (by simp), htake, hdrop]
  rfl

theorem gnomeMods_of_not_bracket {rest : Text} (h : ∀ inner, rest = '<' :: inner → '>' ∉ inner)
    (mods : List Modifier) : Key.gnomeMods mods rest = some (mods, rest) := by
  unfold Key.gnomeMods
  split
  · rename_i inner
    rw [if_neg (h inner rfl)]
  · rfl

/-- The modifiers in front are read, and then what follows them. -/
theorem gnomeMods_names (ms : List Modifier) (rest : Text) :
    ∀ mods, (mods ++ ms).Nodup →
      Key.gnomeMods mods (ms.flatMap bracketed ++ rest) = Key.gnomeMods (mods ++ ms) rest := by
  induction ms with
  | nil => simp
  | cons m ms ih =>
    intro mods h
    obtain ⟨hread, hname, -⟩ := gnomeNames m
    have hm : ¬ mods.contains m = true := by
      rw [List.contains_iff_mem]
      intro hmem
      exact (List.nodup_append.mp h).2.2 m hmem m List.mem_cons_self rfl
    have hshape : (m :: ms).flatMap bracketed ++ rest =
        '<' :: (gnomeName m ++ '>' :: (ms.flatMap bracketed ++ rest)) := by
      simp [bracketed]
    rw [hshape, gnomeMods_bracket mods hname, hread]
    simp only [addMod, if_neg hm]
    rw [List.append_cons] at h
    rw [ih _ h, ← List.append_cons]

theorem length_gnomeMods (rest : Text) : ∀ {mods mods' : List Modifier} {rest' : Text},
    Key.gnomeMods mods rest = some (mods', rest') → rest'.length ≤ rest.length := by
  induction hn : rest.length using Nat.strong_induction_on generalizing rest with
  | _ n ih =>
    intro mods mods' rest' h
    unfold Key.gnomeMods at h
    split at h
    · rename_i inner
      split at h
      · split at h
        · cases h
        · have hdrop := (List.dropWhile_sublist (l := inner) (· ≠ '>')).length_le
          have hlt : ((inner.dropWhile (· ≠ '>')).tail).length < n := by
            rw [← hn, List.length_tail, List.length_cons]
            omega
          exact (ih _ hlt _ rfl h).trans hlt.le
      · rw [← hn, ← (Prod.mk.inj (Option.some.inj h)).2]
    · rw [← hn, ← (Prod.mk.inj (Option.some.inj h)).2]

/-- The keysyms of punctuation are words that stand for one character each. -/
theorem keysyms : ∀ e ∈ NAMED, (NAMED.find? (·.1 = e.1)).map (·.2) = some e.2 ∧
    (NAMED.find? (·.2 = e.2)).map (·.1) = some e.1 ∧ 2 ≤ e.2.length ∧ '<' ∉ e.2 ∧
    ∀ c ∈ e.2, isWhiteSpace c = false := by
  decide +kernel

/-- GNOME's names are no one else's, but for `space`, which is a keysym too. -/
theorem gnome_words : ∀ e ∈ SPECIAL, (SPECIAL.find? (·.1 = e.1)).map (·.2.1) = some e.2.1 ∧
    (SPECIAL.find? (·.2.1 = e.2.1)).map (·.1) = some e.1 ∧ 2 ≤ e.2.1.length ∧ '<' ∉ e.2.1 ∧
    (∀ c ∈ e.2.1, isWhiteSpace c = false) ∧
    (e.2.1 ∈ NAMED.map Prod.snd ↔ e.1 ∈ NAMED.map Prod.snd) := by
  decide +kernel

/-- The key in what is left after the modifiers. -/
def gnomeRest (C : CaseMaps) (rest : Text) : Option Text :=
  (((NAMED.find? (·.2 = rest)).map fun e => [e.1]).or
    ((SPECIAL.find? (·.2.1 = rest)).map (·.1))).or (normalise C rest)

theorem find_keysym {rest : Text} (h : rest ∉ NAMED.map Prod.snd) :
    NAMED.find? (·.2 = rest) = none := by
  rw [List.find?_eq_none]
  intro e he heq
  exact h (List.mem_map.mpr ⟨e, he, by simpa using heq⟩)

theorem find_keysym_some {rest : Text} (h : rest ∈ NAMED.map Prod.snd) :
    ∃ c, gnomeRest C rest = some [c] := by
  obtain ⟨e, he, rfl⟩ := List.mem_map.mp h
  refine ⟨e.1, ?_⟩
  obtain ⟨w, hw, heq⟩ := Option.map_eq_some_iff.mp (keysyms e he).2.1
  unfold gnomeRest
  rw [hw, Option.map_some, heq]
  rfl

theorem find_gnome {key : Text} (hkey : Settled C key) (hlen : 2 ≤ key.length)
    (hours : key ∉ SPECIAL.map Prod.fst) :
    SPECIAL.find? (·.2.1 = key) = none := by
  rw [List.find?_eq_none]
  intro e he heq
  obtain ⟨-, hcapital, hdigits⟩ := capital_words e he
  have hsym : e.2.1 = key := by simpa using heq
  rcases hcapital with hsame | hcapital
  · exact hours (List.mem_map.mpr ⟨e, he, hsame.symm.trans hsym⟩)
  · rcases hkey.cased hlen with hlower | ⟨n, hn, hall⟩
    · rw [← hsym] at hlower
      exact hcapital hlower
    · refine hdigits e.2.1 (by simp) ?_
      rw [hsym, hn]
      exact ⟨rfl, hall⟩

/-- What is no longer than a key that starts with `<` cannot be read as it, being shorter. -/
theorem gnomeRest_ne {key rest : Text} (hhead : key.head? = some '<') (hlen : 2 ≤ key.length)
    (hshort : rest.length < key.length) : gnomeRest C rest ≠ some key := by
  intro h
  unfold gnomeRest at h
  cases hn : NAMED.find? (·.2 = rest) with
  | some e =>
    rw [hn] at h
    obtain rfl := Option.some.inj h
    simp at hlen
  | none =>
    cases hs : SPECIAL.find? (·.2.1 = rest) with
    | some e =>
      rw [hn, hs] at h
      have hours : e.1 = key := Option.some.inj h
      have hlt := (special_words e (List.mem_of_find?_eq_some hs)).2.2.2.1
      rw [hours] at hlt
      exact hlt (List.mem_of_mem_head? hhead)
    | none =>
      rw [hn, hs] at h
      have hnorm : normalise C rest = some key := h
      have htrim := length_trim_le rest
      rcases ht : trim rest with _ | ⟨a, _ | ⟨b, t⟩⟩
      · unfold normalise at hnorm
        rw [ht] at hnorm
        cases hnorm
      · rw [normalise_one ht] at hnorm
        obtain rfl := Option.some.inj hnorm
        split at hhead
        · exact absurd hhead (by decide)
        · rename_i hne
          rw [if_neg hne] at hlen
          rcases C.lower_one a with hi | ⟨d, hd⟩
          · rw [hi] at hhead
            exact absurd hhead (by decide)
          · rw [hd] at hlen
            simp at hlen
      · have hword : 2 ≤ (trim rest).length := by simp [ht]
        rw [normalise_word hword] at hnorm
        obtain rfl := Option.some.inj hnorm
        cases hf : functionKey ((trim rest).map Char.toLower) with
        | some word =>
          obtain ⟨n, hn, -, -⟩ := functionKey_eq hf
          rw [hf, Option.getD_some, hn] at hhead
          simp at hhead
        | none =>
          rw [hf, Option.getD_none] at hhead hshort
          rcases named_cases ((trim rest).map Char.toLower) with hsame | hspecial
          · rw [hsame, List.length_map] at hshort
            omega
          · obtain ⟨e, he, heq⟩ := List.mem_map.mp hspecial
            have hlt := (special_words e he).2.2.2.1
            rw [← heq] at hhead
            exact hlt (List.mem_of_mem_head? hhead)

theorem fromGnome_gnome {k : Key} (hmods : InRank k.mods) (hedged : Edged (Key.gnomeKey k.key)) :
    Key.fromGnome C k.gnome =
      match Key.gnomeMods k.mods (Key.gnomeKey k.key) with
      | none => none
      | some (mods, rest) =>
        if rest = [] then none else (gnomeRest C rest).map fun key => ⟨sortMods mods, key⟩ := by
  have hfront : Edged (k.mods.flatMap bracketed) := by
    apply edged_of_all
    intro c hc
    obtain ⟨m, -, hm⟩ := List.mem_flatMap.mp hc
    exact (gnomeNames m).2.2 c hm
  have hread := gnomeMods_names k.mods (Key.gnomeKey k.key) [] hmods.nodup
  rw [List.nil_append] at hread
  unfold Key.fromGnome
  rw [gnome_eq, (hfront.append hedged).trim, hread]
  rfl

/-- The same, where what follows the modifiers does not look like one. -/
theorem fromGnome_plain {k : Key} (hmods : InRank k.mods) (hedged : Edged (Key.gnomeKey k.key))
    (hne : Key.gnomeKey k.key ≠ [])
    (hplain : ∀ inner, Key.gnomeKey k.key = '<' :: inner → '>' ∉ inner) :
    Key.fromGnome C k.gnome = (gnomeRest C (Key.gnomeKey k.key)).map fun key => ⟨k.mods, key⟩ := by
  rw [fromGnome_gnome hmods hedged, gnomeMods_of_not_bracket hplain]
  simp only
  rw [if_neg hne, hmods.sortMods]

theorem map_key_iff {k : Key} {found : Option Text} :
    found.map (fun key => (⟨k.mods, key⟩ : Key)) = some k ↔ found = some k.key := by
  obtain ⟨mods, key⟩ := k
  cases found with
  | none => simp
  | some t => simp

/-- GNOME's spelling is read back, but for a word that is a keysym and one that starts like a
modifier. -/
theorem fromGnome_gnome_iff {k : Key} (hmods : InRank k.mods) (hkey : Settled C k.key) :
    Key.fromGnome C k.gnome = some k ↔
      k.key ∉ NAMED.map Prod.snd ∧ ∀ inner, k.key = '<' :: inner → '>' ∉ inner := by
  have hshort {t : Text} (ht : t ∈ NAMED.map Prod.snd) : 2 ≤ t.length := by
    obtain ⟨e, he, rfl⟩ := List.mem_map.mp ht
    exact (keysyms e he).2.2.1
  have hnolt {t : Text} (ht : '<' ∉ t) : ∀ inner, t = '<' :: inner → '>' ∉ inner := by
    rintro inner rfl
    exact absurd List.mem_cons_self ht
  by_cases hlen : 2 ≤ k.key.length
  · have hgnome : Key.gnomeKey k.key =
        ((SPECIAL.find? (·.1 = k.key)).map (·.2.1)).getD k.key := by
      obtain ⟨mods, key⟩ := k
      match key, hlen with
      | a :: b :: rest, _ => rfl
    cases hfind : SPECIAL.find? (·.1 = k.key) with
    | some e =>
      have he := List.mem_of_find?_eq_some hfind
      have hours : e.1 = k.key := by simpa using List.find?_some hfind
      obtain ⟨-, hback, hlong, hlt, hspace, hboth⟩ := gnome_words e he
      have hsym : Key.gnomeKey k.key = e.2.1 := by
        rw [hgnome, hfind]
        rfl
      have hne : e.2.1 ≠ [] := by
        intro h
        simp [h] at hlong
      have hword : '<' ∉ k.key := hours ▸ (special_words e he).2.2.2.1
      rw [fromGnome_plain hmods (hsym ▸ edged_of_all hspace) (hsym ▸ hne) (hsym ▸ hnolt hlt), hsym,
        map_key_iff]
      by_cases hkeysym : k.key ∈ NAMED.map Prod.snd
      · obtain ⟨c, hc⟩ := find_keysym_some (C := C) (hboth.mpr (hours ▸ hkeysym))
        refine iff_of_false ?_ fun h => h.1 hkeysym
        rw [hc]
        intro h
        rw [← Option.some.inj h] at hlen
        simp at hlen
      · refine iff_of_true ?_ ⟨hkeysym, hnolt hword⟩
        unfold gnomeRest
        rw [find_keysym fun h => hkeysym (hours ▸ hboth.mp h), Option.map_none, Option.none_or, hback,
          hours]
        rfl
    | none =>
      have hsame : Key.gnomeKey k.key = k.key := by
        rw [hgnome, hfind]
        rfl
      have hours : k.key ∉ SPECIAL.map Prod.fst := by
        intro h
        obtain ⟨e, he, heq⟩ := List.mem_map.mp h
        exact List.find?_eq_none.mp hfind e he (by simpa using heq)
      by_cases hbracket : ∀ inner, k.key = '<' :: inner → '>' ∉ inner
      · rw [fromGnome_plain hmods (hsame.symm ▸ hkey.edged) (hsame.symm ▸ hkey.ne)
          (hsame.symm ▸ hbracket), hsame, map_key_iff]
        by_cases hkeysym : k.key ∈ NAMED.map Prod.snd
        · obtain ⟨c, hc⟩ := find_keysym_some (C := C) hkeysym
          refine iff_of_false ?_ fun h => h.1 hkeysym
          rw [hc]
          intro h
          rw [← Option.some.inj h] at hlen
          simp at hlen
        · refine iff_of_true ?_ ⟨hkeysym, hbracket⟩
          unfold gnomeRest
          rw [find_keysym hkeysym, find_gnome hkey hlen hours, hkey.fixed]
          rfl
      · refine iff_of_false ?_ fun h => hbracket h.2
        obtain ⟨inner, hinner, hclose⟩ : ∃ inner, k.key = '<' :: inner ∧ '>' ∈ inner := by
          by_contra hnone
          exact hbracket fun inner hinner hclose => hnone ⟨inner, hinner, hclose⟩
        rw [fromGnome_gnome hmods (hsame.symm ▸ hkey.edged), hsame]
        intro h
        have hmods' : Key.gnomeMods k.mods k.key =
            match gnomeModifier (inner.takeWhile (· ≠ '>')) with
            | none => none
            | some m => Key.gnomeMods (addMod k.mods m) (inner.dropWhile (· ≠ '>')).tail := by
          rw [hinner, Key.gnomeMods, if_pos hclose]
        rw [hmods'] at h
        cases hm : gnomeModifier (inner.takeWhile (· ≠ '>')) with
        | none =>
          rw [hm] at h
          cases h
        | some m =>
          rw [hm] at h
          simp only at h
          cases hrest : Key.gnomeMods (addMod k.mods m) (inner.dropWhile (· ≠ '>')).tail with
          | none =>
            rw [hrest] at h
            cases h
          | some p =>
            rw [hrest] at h
            simp only at h
            have hle := length_gnomeMods _ hrest
            have hdrop := (List.dropWhile_sublist (l := inner) (· ≠ '>')).length_le
            rw [List.length_tail] at hle
            split at h
            · cases h
            · obtain ⟨t, ht, hk⟩ := Option.map_eq_some_iff.mp h
              have htk : t = k.key := congrArg Key.key hk
              refine gnomeRest_ne (C := C) (by rw [hinner]; rfl) hlen ?_ (htk ▸ ht)
              rw [hinner, List.length_cons]
              omega
  · have hone : ∃ c, k.key = [c] := by
      rcases hk : k.key with _ | ⟨c, _ | ⟨d, t⟩⟩
      · exact absurd hk hkey.ne
      · exact ⟨c, rfl⟩
      · rw [hk] at hlen
        simp at hlen
    obtain ⟨c, hc⟩ := hone
    have hright : k.key ∉ NAMED.map Prod.snd ∧ ∀ inner, k.key = '<' :: inner → '>' ∉ inner := by
      refine ⟨fun h => hlen (hshort h), fun inner h => ?_⟩
      rw [hc] at h
      rw [← (List.cons.inj h).2]
      exact List.not_mem_nil
    refine iff_of_true ?_ hright
    have hgnome : Key.gnomeKey k.key = ((NAMED.find? (·.1 = c)).map (·.2)).getD [c] := by
      rw [hc]
      rfl
    cases hfind : NAMED.find? (·.1 = c) with
    | some e =>
      have he := List.mem_of_find?_eq_some hfind
      have hchar : e.1 = c := by simpa using List.find?_some hfind
      obtain ⟨-, hback, hlong, hlt, hspace⟩ := keysyms e he
      have hsym : Key.gnomeKey k.key = e.2 := by
        rw [hgnome, hfind]
        rfl
      have hne : e.2 ≠ [] := by
        intro h
        simp [h] at hlong
      rw [fromGnome_plain hmods (hsym ▸ edged_of_all hspace) (hsym ▸ hne) (hsym ▸ hnolt hlt), hsym,
        map_key_iff, hc, ← hchar]
      obtain ⟨w, hw, heq⟩ := Option.map_eq_some_iff.mp hback
      unfold gnomeRest
      rw [hw, Option.map_some, heq]
      rfl
    | none =>
      have hsame : Key.gnomeKey k.key = k.key := by
        rw [hgnome, hfind, hc]
        rfl
      rw [fromGnome_plain hmods (hsame.symm ▸ hkey.edged) (hsame.symm ▸ hkey.ne)
        (hsame.symm ▸ hright.2), hsame, map_key_iff]
      have hnone : SPECIAL.find? (·.2.1 = k.key) = none := by
        rw [List.find?_eq_none]
        intro e he heq
        have hlong := (gnome_words e he).2.2.1
        rw [show e.2.1 = k.key by simpa using heq] at hlong
        exact hlen hlong
      unfold gnomeRest
      rw [find_keysym hright.1, hnone, hkey.fixed]
      rfl

/-! ## A hotkey in every spelling -/

theorem parse_facts {s : Text} {k : Key} (h : Key.parse C s = .ok k) :
    InRank k.mods ∧ Settled C k.key := by
  unfold Key.parse at h
  simp only at h
  split at h
  · cases h
  · cases hsplit : splitKey (trim s) with
    | none =>
      rw [hsplit] at h
      cases h
    | some p =>
      rw [hsplit] at h
      simp only at h
      cases hread : readMods ourModifier [] (modNames p.1) with
      | error name =>
        rw [hread] at h
        cases h
      | ok mods =>
        rw [hread] at h
        simp only at h
        cases hkey : normalise C p.2 with
        | none =>
          rw [hkey] at h
          cases h
        | some key =>
          rw [hkey] at h
          cases h
          exact ⟨inRank_sortMods (nodup_readMods List.nodup_nil hread),
            settled_of_normalise hkey (splitKey_part hsplit)⟩

/-- The keys that every spelling keeps. -/
structure Survives (C : CaseMaps) (k : Key) : Prop where
  /-- Not the plus key alone. -/
  plus : ¬ (k.mods = [] ∧ k.key = ['+'])
  /-- Not a word that GNOME has for punctuation or the space bar. -/
  keysym : k.key ∉ NAMED.map Prod.snd
  /-- Not a word that starts like a modifier of GNOME's. -/
  bracket : ∀ inner, k.key = '<' :: inner → '>' ∉ inner
  /-- If one character, one whose capital is one character that folds to it. -/
  letter : ∀ c, k.key = [c] → ∃ d, C.upper c = [d] ∧ C.lower d = [c]

/-- A key that `parse` accepts is read back from all three spellings exactly when it survives them. -/
theorem survives_iff (C : CaseMaps) (s : Text) (k : Key) (h : Key.parse C s = .ok k) :
    (Key.parse C k.display = .ok k ∧ Key.fromGnome C k.gnome = some k ∧
      Key.fromKde C (k.kde C) = some k) ↔ Survives C k := by
  obtain ⟨hmods, hkey⟩ := parse_facts h
  rw [parse_display_iff hmods hkey, fromGnome_gnome_iff hmods hkey, fromKde_kde_iff hmods hkey]
  constructor
  · rintro ⟨hplus, ⟨hkeysym, hbracket⟩, -, hletter⟩
    exact ⟨hplus, hkeysym, hbracket, hletter⟩
  · rintro ⟨hplus, hkeysym, hbracket, hletter⟩
    exact ⟨hplus, ⟨hkeysym, hbracket⟩, hplus, hletter⟩

theorem ascii_lower (c : Char) (_ : c.toNat < 128) : [c.toLower] = [c.toLower] := rfl

theorem ascii_upper (c : Char) (_ : c.toNat < 128) : [c.toUpper] = [c.toUpper] := rfl

theorem ascii_lower_one (c : Char) :
    [c.toLower] = [Char.ofNat 0x69, Char.ofNat 0x307] ∨ ∃ d, [c.toLower] = [d] :=
  Or.inr ⟨c.toLower, rfl⟩

theorem ascii_lower_lower (c d : Char) (h : [c.toLower] = [d]) : [d.toLower] = [d] := by
  rw [← (List.cons.inj h).1, toLower_toLower]

theorem ascii_upper_ne (c : Char) : [c.toUpper] ≠ [] := List.cons_ne_nil _ _

theorem ascii_lower_letter (c : Char) (hc : 128 ≤ c.toNat) (d : Char) (hd : d ∈ [c.toLower])
    (h : d.toNat < 128) : d.isAlpha := by
  rw [List.mem_singleton.mp hd] at h
  rcases toLower_cases c with hlow | ⟨-, h90, -⟩
  · rw [hlow] at h
    omega
  · omega

theorem ascii_upper_letter (c : Char) (hc : 128 ≤ c.toNat) (d : Char) (hd : d ∈ [c.toUpper])
    (h : d.toNat < 128) : d.isAlpha := by
  rw [List.mem_singleton.mp hd, toUpper_of_le hc] at h
  omega

theorem ascii_lower_space (c d : Char) (hd : d ∈ [c.toLower]) (h : isWhiteSpace d = true) :
    isWhiteSpace c = true := by
  rw [List.mem_singleton.mp hd, isWhiteSpace_toLower] at h
  exact h

theorem ascii_upper_space (c d : Char) (hd : d ∈ [c.toUpper]) (h : isWhiteSpace d = true) :
    isWhiteSpace c = true := by
  rw [List.mem_singleton.mp hd] at h
  rcases toUpper_cases c with hup | ⟨h1, h2, h3⟩
  · rwa [hup] at h
  · have hnot : isWhiteSpace c.toUpper = false := by
      unfold isWhiteSpace
      simp
      omega
    rw [hnot] at h
    cases h

/-- A keyboard of ASCII. -/
def CaseMaps.asciiOnly : CaseMaps where
  lower c := [c.toLower]
  upper c := [c.toUpper]
  lower_ascii := ascii_lower
  upper_ascii := ascii_upper
  lower_one := ascii_lower_one
  lower_lower := ascii_lower_lower
  upper_ne := ascii_upper_ne
  lower_letter := ascii_lower_letter
  upper_letter := ascii_upper_letter
  lower_space := ascii_lower_space
  upper_space := ascii_upper_space

theorem survives_ctrlAltS :
    Key.parse .asciiOnly "Alt+control+S".toList = .ok ⟨[.ctrl, .alt], ['s']⟩ ∧
      Key.parse .asciiOnly (Key.display ⟨[.ctrl, .alt], ['s']⟩) = .ok ⟨[.ctrl, .alt], ['s']⟩ ∧
      Key.fromGnome .asciiOnly (Key.gnome ⟨[.ctrl, .alt], ['s']⟩) = some ⟨[.ctrl, .alt], ['s']⟩ ∧
      Key.fromKde .asciiOnly (Key.kde .asciiOnly ⟨[.ctrl, .alt], ['s']⟩) =
        some ⟨[.ctrl, .alt], ['s']⟩ := by
  have h : Key.parse .asciiOnly "Alt+control+S".toList = .ok ⟨[.ctrl, .alt], ['s']⟩ := by
    decide +kernel
  refine ⟨h, (survives_iff .asciiOnly _ _ h).mpr ⟨by decide, by decide, ?_, ?_⟩⟩
  · intro inner hinner
    cases hinner
  · intro c hc
    obtain rfl := (List.cons.inj hc).1
    exact ⟨'S', by decide, by decide⟩

/-- GNOME's spelling of the space bar is read as a key that is a space. -/
theorem not_survives_space :
    Key.parse .asciiOnly "super+space".toList = .ok ⟨[.super], "space".toList⟩ ∧
      ¬ (Key.parse .asciiOnly (Key.display ⟨[.super], "space".toList⟩) =
          .ok ⟨[.super], "space".toList⟩ ∧
        Key.fromGnome .asciiOnly (Key.gnome ⟨[.super], "space".toList⟩) =
          some ⟨[.super], "space".toList⟩ ∧
        Key.fromKde .asciiOnly (Key.kde .asciiOnly ⟨[.super], "space".toList⟩) =
          some ⟨[.super], "space".toList⟩) := by
  have h : Key.parse .asciiOnly "super+space".toList = .ok ⟨[.super], "space".toList⟩ := by
    decide +kernel
  obtain ⟨hmods, hkey⟩ := parse_facts h
  refine ⟨h, fun hall => ?_⟩
  have hkeysym := ((fromGnome_gnome_iff hmods hkey).mp hall.2.1).1
  exact hkeysym (by decide)

end Scour.Hotkey
