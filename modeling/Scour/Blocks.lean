import Scour.Plan

/-!
# Skipping blocks never loses a row

Every rule that drops a block, the live bits, the zone map of each kind of test and the trigram
candidates, keeps the block of a live row that the plan accepts.

There is one exception, the first block of a segment whose bitmap is absent: `View.isAlive` takes an
absent bitmap for every row alive, and `View.blockAlive` finds an empty slice in it and takes the
block for dead.  `Plan.blocks_complete_iff` is the statement with its exact condition.
-/

namespace Scour

/-! ## The live bits -/

theorem View.blockAlive_of_isAlive (v : View) (row : Nat) (h : v.isAlive row = true)
    (hb : v.alive ≠ [] ∨ BLOCK ≤ row) : v.blockAlive (row / BLOCK) = true := by
  have hB : BLOCK = 32 := rfl
  unfold View.isAlive at h
  unfold View.blockAlive
  simp only
  split at h
  · rename_i byte hbyte
    obtain ⟨hlt, hget⟩ := List.getElem?_eq_some_iff.mp hbyte
    rw [if_pos (by rw [hB]; omega), List.any_eq_true]
    refine ⟨byte, ?_, ?_⟩
    · -- the row's byte is one of the four of its block
      rw [List.mem_iff_getElem?]
      refine ⟨row / 8 - row / BLOCK * BLOCK / 8, ?_⟩
      rw [List.getElem?_take_of_lt (by rw [hB]; omega), List.getElem?_drop, ← hbyte]
      congr 1
      rw [hB]
      omega
    · simp only [bne_iff_ne, ne_eq] at h ⊢
      rintro rfl
      exact h (by simp)
  · have hnil : v.alive = [] := List.isEmpty_iff.mp h
    have hrow : BLOCK ≤ row := hb.resolve_left fun hne => hne hnil
    rw [if_neg (by rw [hnil, hB] at *; simp; omega)]
    exact h

/-- An absent bitmap leaves the first block out. -/
theorem View.blockAlive_zero_of_absent (v : View) (h : v.alive = []) : v.blockAlive 0 = false := by
  simp [View.blockAlive, h]

/-! ## The zone map -/

theorem mem_range_bounds (vals : List Int) (v : Int) (vs : List Int) (h : vals = v :: vs) (x : Int)
    (hx : x ∈ vals) : vs.foldl min v ≤ x ∧ x ≤ vs.foldl max v := by
  rw [h] at hx
  rcases List.mem_cons.mp hx with rfl | hx
  · exact ⟨(foldl_min_le vs x).1, (le_foldl_max vs x).1⟩
  · exact ⟨(foldl_min_le vs v).2 x hx, (le_foldl_max vs v).2 x hx⟩

/-- A row's kind is between the two its block reports. -/
theorem View.kind_mem_kindRange (v : View) (row : Nat) (lo hi : Int) (hrow : row < v.kinds.length)
    (h : v.kindRange (row / BLOCK) = some (lo, hi)) : lo ≤ v.kind row ∧ v.kind row ≤ hi := by
  have hB : BLOCK = 32 := rfl
  have hm : v.kind row ∈ (v.kinds.drop (row / BLOCK * BLOCK)).take BLOCK := by
    rw [List.mem_iff_getElem?]
    refine ⟨row - row / BLOCK * BLOCK, ?_⟩
    rw [List.getElem?_take_of_lt (by rw [hB]; omega), List.getElem?_drop,
      show row / BLOCK * BLOCK + (row - row / BLOCK * BLOCK) = row by rw [hB]; omega,
      List.getElem?_eq_getElem hrow]
    unfold View.kind
    rw [List.getD_eq_getElem _ _ hrow]
  unfold View.kindRange at h
  split at h
  · cases h
  · rename_i k ks hks
    simp only [Option.some.injEq, Prod.mk.injEq] at h
    obtain ⟨rfl, rfl⟩ := h
    exact mem_range_bounds _ k ks hks _ hm

theorem Segment.num_mem_ownBlock (s : Segment) (f : Field) (row : Nat) (lo hi : Int)
    (hrow : row < s.cols.length) (h : s.blockRange f (row / BLOCK) = some (lo, hi)) :
    lo ≤ s.num f row ∧ s.num f row ≤ hi := by
  have hB : BLOCK = 32 := rfl
  exact num_mem_blockRange s f _ row lo hi h (by rw [hB]; omega) (by rw [hB]; omega) hrow

/-- A comparison that holds of a number between the two holds of some number between them.  A dated
window that overflows holds of nothing. -/
theorem admits_of_cmpHolds (cmp : Cmp) (value span : Int64) (lo hi got : Int) (hlo : lo ≤ got)
    (hhi : got ≤ hi) (h : cmpHolds cmp value span got = true) : admits cmp value span lo hi = true := by
  unfold cmpHolds at h
  cases cmp with
  | eq =>
    unfold admits
    simp only at h ⊢
    by_cases hs : 1 < span
    · rw [if_pos ⟨trivial, hs⟩] at h
      rw [if_pos hs]
      simp only [Bool.and_eq_true, decide_eq_true_eq] at h ⊢
      have h1 : (value + span).toInt = (value.toInt + span.toInt).bmod (2 ^ 64) :=
        Int64.toInt_add value span
      have h2 : value.toInt < 2 ^ 63 := value.toInt_lt
      have h3 : span.toInt < 2 ^ 63 := span.toInt_lt
      have h4 : -2 ^ 63 ≤ value.toInt := value.le_toInt
      have h5 : 1 < span.toInt := by
        have := Int64.lt_iff_toInt_lt.mp hs
        simpa using this
      have h6 : Int64.maxValue.toInt = 2 ^ 63 - 1 := by decide
      rw [h6]
      rcases lt_or_ge (value.toInt + span.toInt) (2 ^ 63) with hfit | hover
      · rw [Int.bmod_eq_of_le (by omega) (by omega)] at h1
        omega
      · -- past the greatest number the window ends before it starts
        have h7 := Int.sub_bmod_right (value.toInt + span.toInt) (2 ^ 64)
        rw [← h7, Int.bmod_eq_of_le (by push_cast; omega) (by push_cast; omega)] at h1
        push_cast at h1
        omega
    · rw [if_neg (fun hc => hs hc.2)] at h
      rw [if_neg hs]
      simp only [Cmp.holds, beq_iff_eq] at h
      simp only [Bool.and_eq_true, decide_eq_true_eq]
      omega
  | lt => simp [Cmp.holds, admits] at h ⊢; omega
  | le => simp [Cmp.holds, admits] at h ⊢; omega
  | gt => simp [Cmp.holds, admits] at h ⊢; omega
  | ge => simp [Cmp.holds, admits] at h ⊢; omega

/-- A kind whose bit is set lies in the span of any range around it. -/
theorem mask_and_span (mask k lo hi : Nat) (hlo : lo ≤ k) (hhi : k ≤ hi)
    (h : mask &&& 1 <<< k ≠ 0) : mask &&& ((1 <<< (hi - lo + 1)) - 1) <<< lo ≠ 0 := by
  have hbit : mask.testBit k = true := by
    by_contra hc
    apply h
    apply Nat.eq_of_testBit_eq
    intro i
    rw [Nat.testBit_and, Nat.zero_testBit, Nat.shiftLeft_eq, Nat.one_mul, Nat.testBit_two_pow]
    by_cases hik : k = i
    · subst hik
      simpa using hc
    · simp [hik]
  have hspan : (((1 <<< (hi - lo + 1)) - 1) <<< lo).testBit k = true := by
    rw [Nat.testBit_shiftLeft, Nat.shiftLeft_eq, Nat.one_mul, Nat.testBit_two_pow_sub_one]
    simp
    omega
  intro h0
  have := congrArg (fun n => n.testBit k) h0
  simp [Nat.testBit_and, hbit, hspan] at this

namespace PathSet

theorem countUp_getElem? (bs : List Bool) : ∀ (n i : Nat), i ≤ bs.length →
    (countUp n bs)[i]? = some (n + (bs.take i).count true) := by
  induction bs with
  | nil =>
    intro n i hi
    obtain rfl : i = 0 := by simpa using hi
    simp [countUp]
  | cons b bs ih =>
    intro n i hi
    cases i with
    | zero => simp [countUp]
    | succ i =>
      rw [countUp, List.getElem?_cons_succ, ih _ i (by simpa using hi)]
      cases b
      · simp
      · simp
        omega

theorem length_countUp (bs : List Bool) : ∀ n, (countUp n bs).length = bs.length + 1 := by
  induction bs with
  | nil => exact fun _ => rfl
  | cons b bs ih => exact fun n => by rw [countUp, List.length_cons, ih, List.length_cons]

/-- Past a flagged position the count is higher than before it. -/
theorem count_take_lt (bs : List Bool) (lo dir hi : Nat) (hlo : lo ≤ dir) (hhi : dir ≤ hi)
    (h : bs[dir]? = some true) : (bs.take lo).count true < (bs.take (hi + 1)).count true := by
  have h1 : (bs.take lo).count true ≤ (bs.take dir).count true :=
    (List.take_sublist_take_left hlo).count_le _
  have h2 : (bs.take (dir + 1)).count true ≤ (bs.take (hi + 1)).count true :=
    (List.take_sublist_take_left (by omega)).count_le _
  have h3 : (bs.take (dir + 1)).count true = (bs.take dir).count true + 1 := by
    rw [List.take_add_one, h]
    simp
  omega

/-- A block that holds a directory the term can be answered from is admitted. -/
theorem admits_of_holds (T : CaseTable) (term : Str) (dirs : DirTable) (dir lo hi : Nat)
    (name : Str) (hlo : lo ≤ dir) (hhi : dir ≤ hi)
    (h : (build T term dirs).holds dir name = true) : (build T term dirs).admits lo hi = true := by
  unfold admits
  split
  · rfl
  · rename_i hne
    generalize hs : build T term dirs = s at h hne ⊢
    have hname : s.inName = none := by
      by_contra hc
      apply hne
      rw [← hs] at hc ⊢
      simp only [build] at hc ⊢
      rw [if_neg (by simpa using hc)]
      rfl
    have hreach : s.reach = countUp 0 (List.zipWith (· || ·) s.whole s.ending) := by
      rw [← hs] at hname ⊢
      simp only [build] at hname ⊢
      rw [if_pos (by rw [hname]; rfl)]
    have hlen : s.ending.length = s.whole.length := by
      rw [← hs]
      simp [build]
    -- the directory is flagged one way or the other
    have hflag : (List.zipWith (· || ·) s.whole s.ending)[dir]? = some true := by
      simp only [holds, hname, Option.any_none, Bool.or_false, Bool.or_eq_true,
        Bool.and_eq_true] at h
      rw [List.getElem?_zipWith]
      rcases h with h | ⟨h, -⟩
      · have hd : dir < s.whole.length := by
          by_contra hc
          rw [List.getD_eq_default _ _ (by omega)] at h
          cases h
        rw [List.getD_eq_getElem _ _ hd] at h
        rw [List.getElem?_eq_getElem hd, List.getElem?_eq_getElem (by omega), h]
        simp
      · have hd : dir < s.ending.length := by
          by_contra hc
          rw [List.getD_eq_default _ _ (by omega)] at h
          cases h
        rw [List.getD_eq_getElem _ _ hd] at h
        rw [List.getElem?_eq_getElem hd, List.getElem?_eq_getElem (by omega), h]
        simp
    generalize List.zipWith (· || ·) s.whole s.ending = flags at hreach hflag
    have hlt := count_take_lt flags lo dir hi hlo hhi hflag
    have hdir := (List.getElem?_eq_some_iff.mp hflag).1
    rw [hreach, countUp_getElem? flags 0 lo (by omega)]
    by_cases hin : hi + 1 ≤ flags.length
    · rw [countUp_getElem? flags 0 (hi + 1) hin]
      simpa using hlt
    · rw [List.getElem?_eq_none (by rw [length_countUp]; omega)]

end PathSet

/-! ## What one test leaves of a block -/

variable {P : Platform}

/-- A test that holds of a row leaves the row's block. -/
theorem Plan.testPossible_of_evaluate (v : View) (m : Match) (t : Test P)
    (ht : compileMatch P v m = .ok t) (row : Nat) (name : Str) (hrow : row < v.seg.cols.length)
    (hkind : row < v.kinds.length) (h : evaluate v row name t = true) :
    Plan.testPossible v (row / BLOCK) t = true := by
  cases t with
  | never => cases h
  | num field cmp value span =>
    unfold Plan.testPossible
    simp only
    split
    · rename_i lo hi hr
      obtain ⟨h1, h2⟩ := v.seg.num_mem_ownBlock field row lo hi hrow hr
      exact admits_of_cmpHolds cmp value span lo hi _ h1 h2 h
    · rfl
  | dirIn scope =>
    unfold Plan.testPossible
    simp only
    split
    · rename_i lo hi hr
      obtain ⟨h1, h2⟩ := v.seg.num_mem_ownBlock .dirId row lo hi hrow hr
      split
      · exact scope.intersects_of_contains (v.seg.dirId row) _ _
          (by unfold Segment.dirId; omega) (by unfold Segment.dirId; omega) h
      · rfl
    · rfl
  | pathIn set =>
    -- the only test that compiles to a path set carries the set built for its term
    have hset : ∃ term, set = PathSet.build P.case term v.seg.dirs := by
      cases m <;> simp only [compileMatch] at ht
      case pathContains t => exact ⟨utf8 t, by injection ht with ht; injection ht with ht; exact ht.symm⟩
      case nameGlob p => split at ht <;> (try split at ht) <;> cases ht
      case regex p => split at ht <;> cases ht
      case under d => split at ht <;> cases ht
      case parentIs d => split at ht <;> cases ht
      all_goals cases ht
    obtain ⟨term, rfl⟩ := hset
    unfold Plan.testPossible
    simp only
    split
    · rename_i lo hi hr
      obtain ⟨h1, h2⟩ := v.seg.num_mem_ownBlock .dirId row lo hi hrow hr
      split
      · exact PathSet.admits_of_holds P.case term v.seg.dirs (v.seg.dirId row) _ _ name
          (by unfold Segment.dirId; omega) (by unfold Segment.dirId; omega) h
      · rfl
    · rfl
  | kindIn mask =>
    unfold Plan.testPossible
    simp only
    split
    · rename_i lo hi hr
      obtain ⟨h1, h2⟩ := v.kind_mem_kindRange row lo hi hkind hr
      split
      · rename_i hlh
        unfold evaluate at h
        simp only [Bool.and_eq_true, decide_eq_true_eq, bne_iff_ne] at h
        rw [bne_iff_ne, show (hi - lo).toNat = hi.toNat - lo.toNat by omega]
        exact mask_and_span mask (v.kind row).toNat lo.toNat hi.toNat (by omega) (by omega) h.2
      · rfl
    · rfl
  | bits => rfl
  | depth => rfl
  | nameLen => rfl
  | nameHasCased => rfl
  | regex => rfl
  | nameHas => rfl
  | nameGlob => rfl
  | ext => rfl

/-! ## The trigram candidates -/

theorem utf8_infix {a b : Text} (h : a <:+: b) : utf8 a <:+: utf8 b := by
  obtain ⟨l, r, rfl⟩ := h
  exact ⟨utf8 l, utf8 r, by simp⟩

theorem longest_mem {runs : List Text} {run : Text} (h : longest runs = some run) : run ∈ runs := by
  cases runs with
  | nil => cases h
  | cons r rs =>
    have hfold : ∀ (rs : List Text) (m : Text),
        rs.foldl (fun m r => if (utf8 m).length ≤ (utf8 r).length then r else m) m ∈ m :: rs := by
      intro rs
      induction rs with
      | nil => simp
      | cons r rs ih =>
        intro m
        rw [List.foldl_cons]
        have := ih (if (utf8 m).length ≤ (utf8 r).length then r else m)
        rcases List.mem_cons.mp this with he | he
        · rw [he]
          split <;> simp
        · exact List.mem_cons_of_mem _ (List.mem_cons_of_mem _ he)
    rw [longest, Option.some.injEq] at h
    exact h ▸ hfold rs r

/-- A name with an extension ends in a dot and the extension. -/
theorem dot_extension_infix {spelled folded : Str} (h : foldedExtension spelled folded ≠ []) :
    46 :: foldedExtension spelled folded <:+: folded := by
  unfold foldedExtension at h ⊢
  split at h
  · rename_i helig
    rw [if_pos helig]
    unfold extension at h ⊢
    simp only at h ⊢
    split at h
    · rename_i hdot
      rw [if_pos hdot]
      have hsplit := List.takeWhile_append_dropWhile (p := fun b : UInt8 => b != 46)
        (l := folded.reverse)
      cases hd : folded.reverse.dropWhile (fun b => b != 46) with
      | nil =>
        -- without a dot everything would have been taken
        have hall := List.dropWhile_eq_nil_iff.mp hd 46 (by simpa using hdot.1)
        simp at hall
      | cons b rest =>
        have hb : b = 46 := by
          have := List.head_dropWhile_not (l := folded.reverse) (fun b : UInt8 => b != 46)
            (by simp [hd])
          simpa [hd] using this
        rw [hd, hb] at hsplit
        have hrev := congrArg List.reverse hsplit
        rw [List.reverse_reverse, List.reverse_append, List.reverse_cons] at hrev
        exact ⟨rest.reverse, [], by simpa using hrev⟩
    · exact absurd rfl h
  · exact absurd rfl h

/-- What `filterable` answers is in every name its test holds of. -/
theorem infix_of_filterable (v : View) (row : Nat) (name : Str) (t : Test P) (needle : Str)
    (hf : filterable t = some needle) (h : evaluate v row name t = true) : needle <:+: name := by
  unfold filterable at hf
  split at hf
  · rw [Option.some.injEq] at hf
    rw [← hf]
    simpa [evaluate] using h
  · rename_i only dirs
    rw [Option.some.injEq] at hf
    rw [← hf]
    unfold evaluate at h
    simp only [List.any_cons, List.any_nil, Bool.or_false, Bool.and_eq_true, bne_iff_ne,
      beq_iff_eq] at h
    obtain ⟨⟨h1, h2⟩, -⟩ := h
    have hdot : utf8 ('.' :: only) = 46 :: utf8 only := rfl
    rw [hdot, h2]
    exact dot_extension_infix h1
  · rename_i p
    rw [Option.bind_eq_some_iff] at hf
    obtain ⟨run, hrun, hf⟩ := hf
    split at hf
    · rw [Option.some.injEq] at hf
      unfold evaluate at h
      simp only at h
      split at h
      · rename_i cs hcs
        rw [← hf, ← utf8_of_fromUtf8 hcs]
        exact utf8_infix (infix_of_globMatches h run (longest_mem hrun))
      · cases h
    · cases hf
  · cases hf

/-- What one clause narrows the candidates to. -/
def narrowStep (v : View) (out : Option (List Nat)) (c : Clause P) : Option (List Nat) :=
  match c.alts with
  | [(false, test)] =>
      match (filterable test).bind v.tri.candidates with
      | some blocks =>
          match out with
          | none => some blocks
          | some have_ => some (Search.intersect have_ blocks)
      | none => out
  | _ => out

theorem narrowToBlocks_eq (clauses : List (Clause P)) (v : View) :
    narrowToBlocks clauses v =
      if P.noTrigram then none else clauses.foldl (narrowStep v) none := rfl

/-- The candidates hold the block of a row that every clause accepts, and are in order. -/
theorem mem_narrowToBlocks (tooCommon : Nat → Nat) (v : View)
    (htri : v.tri = TrigramIndex.build tooCommon v.folded) (row : Nat) (name : Str)
    (hname : v.folded[row]? = some name) (clauses : List (Clause P))
    (hacc : ∀ c ∈ clauses, (c.alts.any fun a => evaluate v row name a.2 != a.1) = true)
    (blocks : List Nat) (h : narrowToBlocks clauses v = some blocks) :
    row / BLOCK ∈ blocks ∧ blocks.Pairwise (· < ·) := by
  rw [narrowToBlocks_eq] at h
  split at h
  · cases h
  · -- what has been narrowed to so far is in order and holds the block
    have hfold : ∀ (cs : List (Clause P)) (out : Option (List Nat)),
        (∀ c ∈ cs, (c.alts.any fun a => evaluate v row name a.2 != a.1) = true) →
        (∀ bs, out = some bs → row / BLOCK ∈ bs ∧ bs.Pairwise (· < ·)) →
        ∀ bs, cs.foldl (narrowStep v) out = some bs →
          row / BLOCK ∈ bs ∧ bs.Pairwise (· < ·) := by
      intro cs
      induction cs with
      | nil => exact fun out _ hout bs hbs => hout bs hbs
      | cons c cs ih =>
        intro out hcs hout
        rw [List.foldl_cons]
        apply ih _ fun c hc => hcs c (List.mem_cons_of_mem _ hc)
        have hc := hcs c List.mem_cons_self
        unfold narrowStep
        split
        · rename_i test halts
          rw [halts] at hc
          split
          · rename_i found hfound
            rw [Option.bind_eq_some_iff] at hfound
            obtain ⟨needle, hneedle, hcand⟩ := hfound
            have hin := infix_of_filterable v row name test needle hneedle (by simpa using hc)
            rw [htri] at hcand
            obtain ⟨h1, h2⟩ :=
              TrigramIndex.mem_candidates tooCommon v.folded needle found hcand row name hname hin
            split
            · intro bs hbs
              rw [Option.some.injEq] at hbs
              exact hbs ▸ ⟨h1, h2⟩
            · rename_i have_
              obtain ⟨h3, h4⟩ := hout have_ rfl
              intro bs hbs
              rw [Option.some.injEq] at hbs
              rw [← hbs]
              exact ⟨(Search.mem_intersect_iff _ _ h4 h2 _).mpr ⟨h3, h1⟩,
                Search.intersect_sorted _ _ h4⟩
          · exact hout
        · exact hout
    exact hfold clauses none hacc (fun bs hbs => by cases hbs) blocks h

/-! ## Plans -/

namespace Plan

/-- Every test of a compiled plan was compiled from a condition. -/
theorem compileAlts_mem (v : View) : ∀ (alts : List (Bool × Match)) (ts : List (Bool × Test P)),
    compileAlts v alts = .ok ts → ∀ a ∈ ts, ∃ m, compileMatch P v m = .ok a.2 := by
  intro alts
  induction alts with
  | nil =>
    intro ts h
    cases h
    simp
  | cons x alts ih =>
    obtain ⟨negated, m⟩ := x
    intro ts h
    simp only [compileAlts, bind, Except.bind] at h
    split at h
    · cases h
    · rename_i t ht
      split at h
      · cases h
      · rename_i rest hrest
        cases h
        intro a ha
        rcases List.mem_cons.mp ha with rfl | ha
        · exact ⟨m, ht⟩
        · exact ih rest hrest a ha

theorem compileGroups_mem (v : View) : ∀ (groups : List Group) (cs : List (Clause P)),
    compileGroups v groups = .ok cs → ∀ c ∈ cs, ∀ a ∈ c.alts, ∃ m, compileMatch P v m = .ok a.2 := by
  intro groups
  induction groups with
  | nil =>
    intro cs h
    cases h
    simp
  | cons g groups ih =>
    intro cs h
    simp only [compileGroups, bind, Except.bind] at h
    split at h
    · cases h
    · rename_i alts halts
      split at h
      · cases h
      · rename_i rest hrest
        cases h
        intro c hc
        rcases List.mem_cons.mp hc with rfl | hc
        · exact compileAlts_mem v g.alts alts halts
        · exact ih rest hrest c hc

/-- What compiling leaves: compiled tests, and the candidates of these clauses. -/
theorem compile_spec (ast : Ast) (v : View) (p : Plan P) (h : compile ast v = .ok p) :
    (∀ c ∈ p.clauses, ∀ a ∈ c.alts, ∃ m, compileMatch P v m = .ok a.2) ∧
      p.candidates = narrowToBlocks p.clauses v := by
  simp only [compile, bind, Except.bind] at h
  split at h
  · cases h
  · rename_i cs hcs
    cases h
    refine ⟨fun c hc => ?_, rfl⟩
    exact compileGroups_mem v ast.groups cs hcs c ((List.mem_insertionSort _).mp hc)

/-- A row that the plan accepts leaves its block possible. -/
theorem blockPossible_of_accepts (ast : Ast) (v : View) (p : Plan P) (hp : compile ast v = .ok p)
    (row : Nat) (name : Str) (hrow : row < v.seg.cols.length) (hkind : row < v.kinds.length)
    (h : p.accepts v row name = true) : p.blockPossible v (row / BLOCK) = true := by
  obtain ⟨hm, -⟩ := compile_spec ast v p hp
  unfold accepts at h
  unfold blockPossible
  rw [List.all_eq_true] at h ⊢
  intro c hc
  have hacc := h c hc
  split
  · rename_i test halts
    rw [halts] at hacc
    obtain ⟨m, hcm⟩ := hm c hc (false, test) (by rw [halts]; simp)
    exact testPossible_of_evaluate v m test hcm row name hrow hkind (by simpa using hacc)
  · rfl

end Plan

@[simp] theorem View.buildSorted_rows (P : Platform) (es : List Entry) :
    (View.buildSorted P es).rows = es.length := by
  have hc : (View.buildSorted P es).seg.cols.length = es.length := by
    have hlen := (DirWriter.internAll_spec (es.map Entry.parent) .empty List.nodup_nil).2.2.1
    show (List.zipWith columnsOf (List.map _ (DirWriter.empty.internAll _).2) es).length = es.length
    rw [List.length_zipWith, List.length_map, hlen]
    simp
  have hn : (View.buildSorted P es).seg.names.length = es.length := Scour.buildSorted_rows es
  rw [View.rows, hc, hn]
  simp

namespace Plan

/-- A live row that the plan accepts is in a block worth opening, unless it is one of the first
block of a segment whose bitmap is absent. -/
theorem mem_blocksWorthOpening_iff (es : List Entry) (alive : Str) (ast : Ast) (p : Plan P)
    (hp : compile ast { View.buildSorted P es with alive := alive } = .ok p) (row : Nat)
    (hrow : row < es.length)
    (hlive : View.isAlive { View.buildSorted P es with alive := alive } row = true)
    (hacc : p.accepts { View.buildSorted P es with alive := alive } row
      (View.foldedName (View.buildSorted P es) row) = true) :
    row / BLOCK ∈ blocksWorthOpening { View.buildSorted P es with alive := alive } p ↔
      alive ≠ [] ∨ BLOCK ≤ row := by
  have hB : BLOCK = 32 := rfl
  generalize hv : ({ View.buildSorted P es with alive := alive } : View) = v at hp hlive hacc ⊢
  have halive : v.alive = alive := by rw [← hv]
  have hrows : v.rows = es.length := by
    rw [← hv]
    exact View.buildSorted_rows P es
  have hcols : row < v.seg.cols.length := by
    have : v.rows ≤ v.seg.cols.length := by unfold View.rows; omega
    omega
  have hkinds : row < v.kinds.length := by
    rw [← hv]
    simpa [View.buildSorted] using hrow
  have hname : v.folded[row]? = some (View.foldedName (View.buildSorted P es) row) := by
    have hl : row < (View.buildSorted P es).folded.length := by
      simpa [View.buildSorted] using hrow
    rw [← hv]
    show (View.buildSorted P es).folded[row]? = _
    rw [View.foldedName, List.getD_eq_getElem _ _ hl, List.getElem?_eq_getElem hl]
  have htri : v.tri = TrigramIndex.build P.tooCommon v.folded := by
    rw [← hv]
    rfl
  unfold blocksWorthOpening
  simp only
  rw [List.mem_filter, Bool.and_eq_true, ← halive]
  constructor
  · rintro ⟨-, hblock, -⟩
    by_contra hc
    have hnil : v.alive = [] := by
      by_contra hne
      exact hc (Or.inl hne)
    have h0 : row / BLOCK = 0 := by
      have : ¬ BLOCK ≤ row := fun h => hc (Or.inr h)
      rw [hB] at *
      omega
    rw [h0, v.blockAlive_zero_of_absent hnil] at hblock
    cases hblock
  · intro h
    refine ⟨?_, v.blockAlive_of_isAlive row hlive h,
      blockPossible_of_accepts ast v p hp row _ hcols hkinds hacc⟩
    obtain ⟨-, hcand⟩ := compile_spec ast v p hp
    split
    · rename_i c hc
      rw [hcand] at hc
      exact (mem_narrowToBlocks P.tooCommon v htri row _ hname p.clauses
        (List.all_eq_true.mp hacc) c hc).1
    · rw [List.mem_range, hrows, hB]
      omega

end Plan

end Scour
