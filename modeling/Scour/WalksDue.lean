import Scour.PendingWalks

/-!
# A requested walk is taken in time

`Ask` is a call of `PendingWalks`, `after` what waits after some calls, and `returned` what the next
`takeDue` hands out.  Whatever was added waits under an entry that was first asked for no later, or
under the whole-tree request, which is due when it is made (`Waiting`).  So it is handed out by its
`deadline` (`walks_kept`).

What is handed out has no separator at its end, and a whole-tree request that comes late puts
`nextDue` off to its own time: `not_walks_kept` has both.
-/

namespace Scour

namespace PendingWalks

/-- A walk is asked for, or those that are due are taken. -/
inductive Ask where
  | add (path : Str) (now : Nat)
  | take (now : Nat)

def Ask.time : Ask → Nat
  | .add _ now => now
  | .take now => now

/-- When the earliest of these has waited long enough. -/
def nextDue (w : PendingWalks) (debounce cap : Nat) : Option Nat :=
  (w.at_.map (dueAt debounce cap)).min?

variable (debounce cap : Nat)

def ask (w : PendingWalks) : Ask → PendingWalks
  | .add path now => w.add path now
  | .take now => (w.takeDue debounce cap now).2

def after (asks : List Ask) : PendingWalks := asks.foldl (ask debounce cap) empty

/-- What the next `takeDue` hands out. -/
def returned (asks : List Ask) (now : Nat) : List Str :=
  ((after debounce cap asks).takeDue debounce cap now).1

/-- When a walk is to be taken: at once, for the whole tree. -/
def deadline (path : Str) (now : Nat) : Nat := if trimEnd path = [] then now else now + cap

/-- One of the later calls handed out something that covers the path. -/
def Taken (before later : List Ask) (path : Str) : Prop :=
  ∃ l₁ now l₂, later = l₁ ++ .take now :: l₂ ∧
    ∃ q ∈ returned debounce cap (before ++ l₁) now, under path q = true

/-- The whole tree was asked for by then, in one of these calls. -/
def Whole (later : List Ask) (d : Nat) : Prop :=
  ∃ whole t', .add whole t' ∈ later ∧ trimEnd whole = [] ∧ d ≤ t'

/-- What the calls keep: a walk is taken by its deadline, what is taken was asked for, and the next
walk is due by the earliest deadline, or when a whole-tree request was made since. -/
structure WalksKept (asks : List Ask) : Prop where
  taken : ∀ before path t later now rest,
    asks = before ++ .add path t :: (later ++ .take now :: rest) → deadline cap path t ≤ now →
      Taken debounce cap (before ++ [.add path t]) (later ++ [.take now]) path
  asked : ∀ before now rest, asks = before ++ .take now :: rest →
    ∀ q ∈ returned debounce cap before now, ∃ path t, .add path t ∈ before ∧ trimEnd path = q
  due : ∀ before path t later rest, asks = before ++ .add path t :: (later ++ rest) →
    ¬ Taken debounce cap (before ++ [.add path t]) later path →
      ∃ d, (after debounce cap (before ++ .add path t :: later)).nextDue debounce cap = some d ∧
        (d ≤ deadline cap path t ∨ Whole later d)

variable {debounce cap} {w : PendingWalks} {path : Str} {t now : Nat} {e : Str × Nat × Nat}

/-! ## Entries -/

theorem foldl_min_le (l : List Nat) :
    ∀ a : Nat, l.foldl min a ≤ a ∧ ∀ x ∈ l, l.foldl min a ≤ x := by
  induction l with
  | nil => exact fun a => ⟨Nat.le_refl a, nofun⟩
  | cons b l ih =>
    intro a
    obtain ⟨h₁, h₂⟩ := ih (min a b)
    rw [List.foldl_cons]
    refine ⟨by omega, fun x hx => ?_⟩
    rcases List.mem_cons.mp hx with rfl | hx
    · omega
    · exact h₂ x hx

theorem mem_refresh (l : List (Str × Nat × Nat)) :
    (∀ e ∈ l, ∃ e' ∈ refresh path now l, e'.1 = e.1 ∧ e'.2.1 = e.2.1) ∧
      ∀ e' ∈ refresh path now l, ∃ e ∈ l, e'.1 = e.1 ∧ e'.2.1 = e.2.1 := by
  induction l with
  | nil => exact ⟨nofun, nofun⟩
  | cons f l ih =>
    obtain ⟨h₁, h₂⟩ := ih
    unfold refresh
    by_cases hf : under path f.1 = true
    · rw [if_pos hf]
      refine ⟨fun e he => ?_, fun e' he' => ?_⟩
      · rcases List.mem_cons.mp he with rfl | he
        · exact ⟨_, List.mem_cons_self, rfl, rfl⟩
        · exact ⟨e, List.mem_cons_of_mem _ he, rfl, rfl⟩
      · rcases List.mem_cons.mp he' with rfl | he'
        · exact ⟨f, List.mem_cons_self, rfl, rfl⟩
        · exact ⟨e', List.mem_cons_of_mem _ he', rfl, rfl⟩
    · rw [if_neg hf]
      refine ⟨fun e he => ?_, fun e' he' => ?_⟩
      · rcases List.mem_cons.mp he with rfl | he
        · exact ⟨_, List.mem_cons_self, rfl, rfl⟩
        · obtain ⟨e', he', h⟩ := h₁ e he
          exact ⟨e', List.mem_cons_of_mem _ he', h⟩
      · rcases List.mem_cons.mp he' with rfl | he'
        · exact ⟨_, List.mem_cons_self, rfl, rfl⟩
        · obtain ⟨e, he, h⟩ := h₂ e' he'
          exact ⟨e, List.mem_cons_of_mem _ he, h⟩

/-- The three ways a path is added, and what becomes of the entries. -/
theorem add_cases (w : PendingWalks) (path : Str) (now : Nat) :
    (trimEnd path = [] ∧ (w.add path now).at_ = [([], now, now)]) ∨
      (trimEnd path ≠ [] ∧ (∃ e ∈ w.at_, under (trimEnd path) e.1 = true) ∧
        (w.add path now).at_ = refresh (trimEnd path) now w.at_) ∨
      (trimEnd path ≠ [] ∧ (∀ e ∈ w.at_, under (trimEnd path) e.1 = false) ∧
        ∃ first, first ≤ now ∧ (∀ e ∈ w.at_, under e.1 (trimEnd path) = true → first ≤ e.2.1) ∧
          (w.add path now).at_ =
            (w.at_.filter fun e => !under e.1 (trimEnd path)) ++ [(trimEnd path, first, now)]) := by
  unfold add
  dsimp only
  by_cases hp : trimEnd path = []
  · left
    rw [if_pos (by rw [hp]; rfl)]
    exact ⟨hp, rfl⟩
  · right
    rw [if_neg (by simpa using hp)]
    by_cases hany : (w.at_.any fun e => under (trimEnd path) e.1) = true
    · left
      rw [if_pos hany]
      exact ⟨hp, List.any_eq_true.mp hany, rfl⟩
    · right
      rw [if_neg hany]
      obtain ⟨hnow, hfirst⟩ :=
        foldl_min_le ((w.at_.filter fun e => under e.1 (trimEnd path)).map (·.2.1)) now
      refine ⟨hp, fun e he => ?_, _, hnow, fun e he hu => ?_, rfl⟩
      · rw [Bool.not_eq_true, List.any_eq_false] at hany
        exact Bool.not_eq_true _ ▸ hany e he
      · exact hfirst _ (List.mem_map.mpr ⟨e, List.mem_filter.mpr ⟨he, hu⟩, rfl⟩)

/-- **What is due is handed out**, and what waits on was not due. -/
theorem takeDue_entry (w : PendingWalks) (he : e ∈ w.at_) :
    (∃ q ∈ (w.takeDue debounce cap now).1, under e.1 q = true) ∨
      (e ∈ (w.takeDue debounce cap now).2.at_ ∧ now < dueAt debounce cap e) := by
  have hcoalesce : ∀ d ∈ (w.at_.filter fun e => decide (dueAt debounce cap e ≤ now)).map (·.1),
      under e.1 d = true → ∃ q ∈ coalesce
        ((w.at_.filter fun e => decide (dueAt debounce cap e ≤ now)).map (·.1)),
          under e.1 q = true := by
    intro d hd hu
    obtain ⟨q, hq, huq⟩ := (reduce_spec _).2 d hd
    exact ⟨q, hq, under_trans hu huq⟩
  unfold takeDue
  dsimp only
  by_cases hdue : dueAt debounce cap e ≤ now
  · left
    have hmem : e.1 ∈ (w.at_.filter fun e => decide (dueAt debounce cap e ≤ now)).map (·.1) :=
      List.mem_map.mpr ⟨e, List.mem_filter.mpr ⟨he, decide_eq_true hdue⟩, rfl⟩
    rw [if_neg (by rw [List.isEmpty_iff]; exact List.ne_nil_of_mem hmem)]
    exact hcoalesce e.1 hmem (under_refl e.1)
  · have hrest : e ∈ w.at_.filter fun e => !(dueAt debounce cap e ≤ now : Bool) :=
      List.mem_filter.mpr ⟨he, by simpa using hdue⟩
    split
    · exact Or.inr ⟨hrest, by omega⟩
    · by_cases hany : (((w.at_.filter fun e => decide (dueAt debounce cap e ≤ now)).map (·.1)).any
          fun d => under e.1 d) = true
      · left
        obtain ⟨d, hd, hu⟩ := List.any_eq_true.mp hany
        exact hcoalesce d hd hu
      · right
        refine ⟨List.mem_filter.mpr ⟨hrest, ?_⟩, by omega⟩
        rw [Bool.not_eq_true] at hany
        rw [hany]
        rfl

/-- What is handed out, and what waits on, waited. -/
theorem takeDue_from (w : PendingWalks) :
    (∀ q ∈ (w.takeDue debounce cap now).1, ∃ e ∈ w.at_, trimEnd e.1 = q) ∧
      ∀ e ∈ (w.takeDue debounce cap now).2.at_, e ∈ w.at_ := by
  unfold takeDue
  dsimp only
  split
  · exact ⟨fun q hq => (by cases hq), fun e he => List.mem_of_mem_filter he⟩
  · refine ⟨fun q hq => ?_, fun e he => List.mem_of_mem_filter (List.mem_of_mem_filter he)⟩
    obtain ⟨p, hp, rfl⟩ := (reduce_spec _).1 q hq
    obtain ⟨e, he, rfl⟩ := List.mem_map.mp hp
    exact ⟨e, List.mem_of_mem_filter he, rfl⟩

/-! ## A path that waits -/

/-- An entry covers the path and was first asked for no later, or the whole tree was since. -/
def Waits (w : PendingWalks) (path : Str) (t : Nat) (later : List Ask) : Prop :=
  ∃ e ∈ w.at_, under path e.1 = true ∧ (trimEnd path = [] → e.1 = []) ∧
    (e.2.1 ≤ t ∨ e.1 = [] ∧ Whole later e.2.1)

/-- No entry ends with a separator, and none is younger than the last call. -/
structure Dated (w : PendingWalks) (now : Nat) : Prop where
  trimmed : ∀ e ∈ w.at_, trimEnd e.1 = e.1
  dated : ∀ e ∈ w.at_, e.2.1 ≤ now

theorem dated_empty : empty.Dated now := ⟨nofun, nofun⟩

theorem Dated.mono {now' : Nat} (h : w.Dated now) (hle : now ≤ now') : w.Dated now' :=
  ⟨h.trimmed, fun e he => by have := h.dated e he; omega⟩

theorem Dated.add (h : w.Dated now) (path : Str) : (w.add path now).Dated now := by
  rcases add_cases w path now with ⟨-, he⟩ | ⟨-, -, he⟩ | ⟨-, -, first, hnow, -, he⟩
  · refine ⟨fun e hmem => ?_, fun e hmem => ?_⟩
    · rw [he, List.mem_singleton] at hmem
      subst hmem
      rfl
    · rw [he, List.mem_singleton] at hmem
      subst hmem
      exact Nat.le_refl _
  · refine ⟨fun e' hmem => ?_, fun e' hmem => ?_⟩
    · obtain ⟨e, hmem', h₁, -⟩ := (mem_refresh w.at_).2 e' (he ▸ hmem)
      rw [h₁]
      exact h.trimmed e hmem'
    · obtain ⟨e, hmem', -, h₂⟩ := (mem_refresh w.at_).2 e' (he ▸ hmem)
      rw [h₂]
      exact h.dated e hmem'
  · refine ⟨fun e hmem => ?_, fun e hmem => ?_⟩
    · rw [he, List.mem_append, List.mem_singleton] at hmem
      rcases hmem with hmem | rfl
      · exact h.trimmed e (List.mem_of_mem_filter hmem)
      · exact trimEnd_trimEnd path
    · rw [he, List.mem_append, List.mem_singleton] at hmem
      rcases hmem with hmem | rfl
      · exact h.dated e (List.mem_of_mem_filter hmem)
      · exact hnow

theorem Dated.takeDue (h : w.Dated now) (now' : Nat) :
    (w.takeDue debounce cap now').2.Dated now :=
  ⟨fun e he => h.trimmed e ((takeDue_from w).2 e he),
    fun e he => h.dated e ((takeDue_from w).2 e he)⟩

/-- What was just added waits. -/
theorem waits_add_self (h : w.Dated t) (path : Str) : (w.add path t).Waits path t [] := by
  have hself : under path (trimEnd path) = true := by rw [under_trimEnd]; exact under_refl path
  rcases add_cases w path t with ⟨hp, he⟩ | ⟨hp, ⟨e, hmem, hu⟩, he⟩ | ⟨hp, -, first, hnow, -, he⟩
  · refine ⟨([], t, t), ?_, rfl, fun _ => rfl, Or.inl (Nat.le_refl t)⟩
    rw [he]
    exact List.mem_singleton.mpr rfl
  · obtain ⟨e', hmem', h₁, h₂⟩ := (mem_refresh w.at_).1 e hmem
    refine ⟨e', he ▸ hmem', ?_, fun hnil => absurd hnil hp, Or.inl ?_⟩
    · rw [h₁]
      exact under_trans (under_refl path) hu
    · rw [h₂]
      exact h.dated e hmem
  · refine ⟨(trimEnd path, first, t), ?_, hself, fun hnil => absurd hnil hp, Or.inl hnow⟩
    rw [he]
    exact List.mem_append_right _ (List.mem_singleton.mpr rfl)

theorem Whole.append {later : List Ask} {d : Nat} (h : Whole later d) (more : List Ask) :
    Whole (later ++ more) d := by
  obtain ⟨whole, t', hmem, hw, hd⟩ := h
  exact ⟨whole, t', List.mem_append_left _ hmem, hw, hd⟩

/-- What waits goes on waiting when another path is added. -/
theorem Waits.add {later : List Ask} (h : w.Waits path t later) (hw : w.Dated now) (p : Str) :
    (w.add p now).Waits path t (later ++ [.add p now]) := by
  obtain ⟨e, hmem, hu, hnil, hfirst⟩ := h
  rcases add_cases w p now with ⟨hp, he⟩ | ⟨-, -, he⟩ | ⟨-, hno, first, -, hmin, he⟩
  · refine ⟨([], now, now), ?_, rfl, fun _ => rfl, Or.inr ⟨rfl, p, now, ?_, hp, Nat.le_refl now⟩⟩
    · rw [he]
      exact List.mem_singleton.mpr rfl
    · exact List.mem_append_right _ (List.mem_singleton.mpr rfl)
  · obtain ⟨e', hmem', h₁, h₂⟩ := (mem_refresh w.at_).1 e hmem
    refine ⟨e', he ▸ hmem', h₁ ▸ hu, fun hp => h₁.trans (hnil hp), ?_⟩
    rw [h₁, h₂]
    exact hfirst.imp_right fun ⟨hroot, hwhole⟩ => ⟨hroot, hwhole.append _⟩
  · -- a whole-tree entry would have covered the new path
    have hne : e.1 ≠ [] := by
      intro hroot
      have := hno e hmem
      rw [hroot] at this
      cases this
    have hle : e.2.1 ≤ t := hfirst.resolve_right fun hroot => hne hroot.1
    by_cases hcov : under e.1 (trimEnd p) = true
    · refine ⟨(trimEnd p, first, now), ?_, ?_, fun hp => absurd (hnil hp) hne, Or.inl ?_⟩
      · rw [he]
        exact List.mem_append_right _ (List.mem_singleton.mpr rfl)
      · exact under_trans hu ((hw.trimmed e hmem).symm ▸ hcov)
      · exact Nat.le_trans (hmin e hmem hcov) hle
    · refine ⟨e, ?_, hu, hnil, Or.inl hle⟩
      rw [he]
      exact List.mem_append_left _ (List.mem_filter.mpr ⟨hmem, by simpa using hcov⟩)

/-- What waits is handed out, or goes on waiting. -/
theorem Waits.takeDue {later : List Ask} (h : w.Waits path t later) (hw : w.Dated now)
    (now' : Nat) :
    (∃ q ∈ (w.takeDue debounce cap now').1, under path q = true) ∨
      (w.takeDue debounce cap now').2.Waits path t (later ++ [.take now']) := by
  obtain ⟨e, hmem, hu, hnil, hfirst⟩ := h
  rcases @takeDue_entry debounce cap now' e w hmem with
    ⟨q, hq, huq⟩ | ⟨hrest, -⟩
  · exact Or.inl ⟨q, hq, under_trans hu ((hw.trimmed e hmem).symm ▸ huq)⟩
  · exact Or.inr ⟨e, hrest, hu, hnil,
      hfirst.imp_right fun ⟨hroot, hwhole⟩ => ⟨hroot, hwhole.append _⟩⟩

/-- The entry a path waits under is due by the path's deadline, or when the whole tree was asked
for. -/
theorem Waits.dueAt_le {later : List Ask} (h : w.Waits path t later) :
    ∃ e ∈ w.at_, under path e.1 = true ∧
      (dueAt debounce cap e ≤ deadline cap path t ∨ Whole later (dueAt debounce cap e)) := by
  obtain ⟨e, hmem, hu, hnil, hfirst⟩ := h
  refine ⟨e, hmem, hu, ?_⟩
  unfold dueAt deadline
  by_cases hroot : e.1 = []
  · rw [if_pos (by rw [hroot]; rfl)]
    refine hfirst.imp (fun hle => ?_) fun hwhole => hwhole.2
    split <;> omega
  · have hle : e.2.1 ≤ t := hfirst.resolve_right fun hr => hroot hr.1
    rw [if_neg (by simpa using hroot), if_neg fun hp => hroot (hnil hp)]
    left
    omega

/-! ## Runs -/

variable (debounce cap) in
theorem after_concat (asks : List Ask) (a : Ask) :
    after debounce cap (asks ++ [a]) = (after debounce cap asks).ask debounce cap a := by
  unfold after
  rw [List.foldl_append]
  rfl

/-- The calls come in the order of their times. -/
def Timely (asks : List Ask) : Prop := (asks.map Ask.time).Pairwise (· ≤ ·)

instance (asks : List Ask) : Decidable (Timely asks) := by unfold Timely; infer_instance

theorem Timely.append {before later : List Ask} (h : Timely (before ++ later)) :
    Timely before ∧ ∀ a ∈ before, ∀ b ∈ later, a.time ≤ b.time := by
  unfold Timely at h
  rw [List.map_append, List.pairwise_append] at h
  exact ⟨h.1, fun a ha b hb =>
    h.2.2 a.time (List.mem_map.mpr ⟨a, ha, rfl⟩) b.time (List.mem_map.mpr ⟨b, hb, rfl⟩)⟩

theorem dated_after {asks : List Ask} (h : Timely asks) (hnow : ∀ a ∈ asks, a.time ≤ now) :
    (after debounce cap asks).Dated now := by
  induction asks using List.reverseRecOn generalizing now with
  | nil => exact dated_empty
  | append_singleton asks a ih =>
    obtain ⟨hbefore, hlast⟩ := h.append
    have ha : a.time ≤ now := hnow a (List.mem_append_right _ (List.mem_singleton.mpr rfl))
    have hdated : (after debounce cap asks).Dated a.time :=
      ih hbefore fun b hb => hlast b hb a (List.mem_singleton.mpr rfl)
    rw [after_concat]
    cases a with
    | add path t => exact (hdated.add path).mono ha
    | take t => exact (hdated.takeDue t).mono ha

/-- **Nothing is lost**: what was added is handed out, or waits. -/
theorem waits_after {before later : List Ask} (h : Timely (before ++ .add path t :: later)) :
    Taken debounce cap (before ++ [.add path t]) later path ∨
      (after debounce cap (before ++ .add path t :: later)).Waits path t later := by
  induction later using List.reverseRecOn with
  | nil =>
    right
    obtain ⟨hbefore, hlast⟩ := h.append
    rw [after_concat]
    exact waits_add_self
      (dated_after hbefore fun a ha => hlast a ha _ (List.mem_singleton.mpr rfl)) path
  | append_singleton later a ih =>
    have hsplit :
        before ++ .add path t :: (later ++ [a]) = (before ++ .add path t :: later) ++ [a] := by
      simp
    rw [hsplit] at h
    obtain ⟨hbefore, hlast⟩ := h.append
    have hdated : (after debounce cap (before ++ .add path t :: later)).Dated a.time :=
      dated_after hbefore fun b hb => hlast b hb a (List.mem_singleton.mpr rfl)
    rcases ih hbefore with ⟨l₁, now, l₂, rfl, q, hq, hu⟩ | hwaits
    · exact Or.inl ⟨l₁, now, l₂ ++ [a], by simp, q, hq, hu⟩
    · rw [hsplit, after_concat]
      cases a with
      | add p now => exact Or.inr (hwaits.add hdated p)
      | take now =>
        rcases hwaits.takeDue hdated now with ⟨q, hq, hu⟩ | hwaits
        · refine Or.inl ⟨later, now, [], rfl, q, ?_, hu⟩
          simpa [returned] using hq
        · exact Or.inr hwaits

/-- What waits was asked for. -/
theorem asked_after (asks : List Ask) :
    ∀ e ∈ (after debounce cap asks).at_, ∃ path t, .add path t ∈ asks ∧ trimEnd path = e.1 := by
  induction asks using List.reverseRecOn with
  | nil => exact nofun
  | append_singleton asks a ih =>
    have hold : ∀ e ∈ (after debounce cap asks).at_,
        ∃ path t, .add path t ∈ asks ++ [a] ∧ trimEnd path = e.1 := by
      intro e he
      obtain ⟨path, t, hmem, hp⟩ := ih e he
      exact ⟨path, t, List.mem_append_left _ hmem, hp⟩
    rw [after_concat]
    intro e he
    cases a with
    | take now => exact hold e ((takeDue_from _).2 e he)
    | add p now =>
      have hnew : (Ask.add p now) ∈ asks ++ [.add p now] :=
        List.mem_append_right _ (List.mem_singleton.mpr rfl)
      unfold ask at he
      rcases add_cases (after debounce cap asks) p now with
        ⟨hp, heq⟩ | ⟨-, -, heq⟩ | ⟨-, -, first, -, -, heq⟩
      · rw [heq, List.mem_singleton] at he
        subst he
        exact ⟨p, now, hnew, hp⟩
      · obtain ⟨e', he', h₁, -⟩ := (mem_refresh _).2 e (heq ▸ he)
        rw [h₁]
        exact hold e' he'
      · rw [heq, List.mem_append, List.mem_singleton] at he
        rcases he with he | rfl
        · exact hold e (List.mem_of_mem_filter he)
        · exact ⟨p, now, hnew, rfl⟩

theorem nextDue_le {e : Str × Nat × Nat} (he : e ∈ w.at_) :
    ∃ d, w.nextDue debounce cap = some d ∧ d ≤ dueAt debounce cap e := by
  have hmem : dueAt debounce cap e ∈ w.at_.map (dueAt debounce cap) := List.mem_map.mpr ⟨e, he, rfl⟩
  obtain ⟨d, hd⟩ := Option.isSome_iff_exists.mp (List.isSome_min?_of_mem hmem)
  exact ⟨d, hd, (List.min?_eq_some_iff.mp hd).2 _ hmem⟩

/-- **A requested walk is taken by its deadline**, nothing else is taken, and the next walk is due
by the earliest deadline or when a whole-tree request was made since. -/
theorem walks_kept (debounce cap : Nat) (asks : List Ask) (h : Timely asks) :
    WalksKept debounce cap asks where
  taken := by
    intro before path t later now rest heq hdead
    have hsplit : asks = (before ++ .add path t :: later) ++ (.take now :: rest) := by simp [heq]
    rw [hsplit] at h
    obtain ⟨hbefore, hlast⟩ := h.append
    have hle : ∀ a ∈ before ++ .add path t :: later, a.time ≤ now :=
      fun a ha => hlast a ha (.take now) List.mem_cons_self
    rcases waits_after hbefore with ⟨l₁, now', l₂, rfl, q, hq, hu⟩ | hwaits
    · exact ⟨l₁, now', l₂ ++ [.take now], by simp, q, hq, hu⟩
    · obtain ⟨e, he, hu, hdue⟩ := @Waits.dueAt_le debounce cap _ _ _ _ hwaits
      -- a whole-tree request of these calls is due by now too
      have hnow : dueAt debounce cap e ≤ now := by
        rcases hdue with hdue | ⟨whole, t', hmem, -, hdue⟩
        · exact Nat.le_trans hdue hdead
        · have ht : t' ≤ now :=
            hle (.add whole t') (List.mem_append_right _ (List.mem_cons_of_mem _ hmem))
          omega
      have htrim := (@dated_after debounce cap now _ hbefore hle).trimmed e he
      rcases takeDue_entry _ he with ⟨q, hq, huq⟩ | ⟨-, hlate⟩
      · refine ⟨later, now, [], rfl, q, ?_, under_trans hu (htrim.symm ▸ huq)⟩
        simpa [returned] using hq
      · omega
  asked := by
    intro before now rest _ q hq
    obtain ⟨e, he, rfl⟩ := (takeDue_from _).1 q hq
    obtain ⟨path, t, hmem, hp⟩ := asked_after before e he
    exact ⟨path, t, hmem, by rw [← hp, trimEnd_trimEnd]⟩
  due := by
    intro before path t later rest heq hno
    have hsplit : asks = (before ++ .add path t :: later) ++ rest := by simp [heq]
    rw [hsplit] at h
    obtain ⟨e, he, -, hdue⟩ :=
      @Waits.dueAt_le debounce cap _ _ _ _ ((waits_after h.append.1).resolve_left hno)
    obtain ⟨d, hd, hle⟩ := @nextDue_le debounce cap _ _ he
    refine ⟨d, hd, hdue.imp (fun h => Nat.le_trans hle h) ?_⟩
    rintro ⟨whole, t', hmem, hw, ht⟩
    exact ⟨whole, t', hmem, hw, Nat.le_trans hle ht⟩

/-- Calls of one run: nested paths, the whole tree, and what is due in between. -/
def askedRun : List Ask :=
  [.add [47, 97, 47, 98] 0, .add [47, 97] 1, .take 3, .add [] 4, .take 9]

theorem walks_kept_askedRun : Timely askedRun ∧ WalksKept 5 7 askedRun :=
  ⟨by decide, walks_kept 5 7 askedRun (by decide)⟩

/-- A path is handed out without the separator it was asked for with, and the next walk is put off
past a deadline by a whole-tree request that comes after it. -/
theorem not_walks_kept :
    (Timely [.add [47, 97, 47] 0, .take 9] ∧
      [47, 97] ∈ returned 5 5 [.add [47, 97, 47] 0] 9 ∧
      ¬ ∃ t, .add [47, 97] t ∈ [Ask.add [47, 97, 47] 0]) ∧
    (Timely [.add [47, 97] 0, .add [] 100] ∧ deadline 5 [47, 97] 0 = 5 ∧
      ¬ Taken 5 5 [.add [47, 97] 0] [.add [] 100] [47, 97] ∧
      (after 5 5 [.add [47, 97] 0, .add [] 100]).nextDue 5 5 = some 100) := by
  refine ⟨⟨by decide, by decide, ?_⟩, by decide, by decide, ?_, by decide⟩
  · rintro ⟨t, ht⟩
    rw [List.mem_singleton] at ht
    cases ht
  · rintro ⟨l₁, now, l₂, heq, -⟩
    cases l₁ with
    | nil => cases heq
    | cons a l =>
      injection heq with _ htail
      cases l <;> cases htail

end PendingWalks

end Scour
