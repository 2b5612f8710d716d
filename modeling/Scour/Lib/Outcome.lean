/-!
# Calls that may fail and keep what they did

An `Outcome` is the state a call leaves and its value, none where it failed; the state of a failed
call is kept.  `Meets` says what holds after a call that succeeds and after one that fails, with the
rule for sequencing (`Meets.bind`) and for consequence (`Meets.mono`).
-/

namespace Search

/-- What a call leaves and returns: no value is an error. -/
structure Outcome (σ α : Type) where
  world : σ
  val : Option α

namespace Outcome

variable {σ α β : Type}

def ok (w : σ) (a : α) : Outcome σ α := ⟨w, some a⟩

def err (w : σ) : Outcome σ α := ⟨w, none⟩

/-- `?`. -/
def bind (r : Outcome σ α) (f : σ → α → Outcome σ β) : Outcome σ β :=
  match r.val with
  | none => err r.world
  | some a => f r.world a

/-- `Q` holds after a call that succeeds, `E` after one that fails. -/
def Meets (r : Outcome σ α) (Q : σ → α → Prop) (E : σ → Prop) : Prop :=
  (∀ a, r.val = some a → Q r.world a) ∧ (r.val = none → E r.world)

/-- `P` holds if the call succeeds. -/
def Then (r : Outcome σ α) (P : σ → α → Prop) : Prop := ∀ a, r.val = some a → P r.world a

instance decidableThen {r : Outcome σ α} {P : σ → α → Prop} [∀ w a, Decidable (P w a)] :
    Decidable (r.Then P) :=
  match hv : r.val with
  | none => .isTrue fun a ha => by simp [hv] at ha
  | some a => decidable_of_iff (P r.world a)
      ⟨fun h b hb => Option.some.inj (hv.symm.trans hb) ▸ h, fun h => h a hv⟩

@[simp] theorem meets_ok (w : σ) (a : α) (Q : σ → α → Prop) (E : σ → Prop) :
    (ok w a).Meets Q E ↔ Q w a := by simp [Meets, ok]

@[simp] theorem meets_err (w : σ) (Q : σ → α → Prop) (E : σ → Prop) :
    (err w : Outcome σ α).Meets Q E ↔ E w := by simp [Meets, err]

@[simp] theorem then_ok (w : σ) (a : α) (P : σ → α → Prop) : (ok w a).Then P ↔ P w a := by
  simp [Then, ok]

@[simp] theorem then_err (w : σ) (P : σ → α → Prop) : (err w : Outcome σ α).Then P := by
  simp [Then, err]

theorem eq_ok {r : Outcome σ α} {w : σ} {a : α} (hw : r.world = w) (hv : r.val = some a) :
    r = ok w a := by
  cases r
  subst hw hv
  rfl

@[simp] theorem bind_ok (w : σ) (a : α) (f : σ → α → Outcome σ β) : (ok w a).bind f = f w a := rfl

theorem Then.bind {r : Outcome σ α} {f : σ → α → Outcome σ β} {P : σ → β → Prop}
    (h : r.Then fun w a => (f w a).Then P) : (r.bind f).Then P := by
  unfold Outcome.bind
  cases hv : r.val with
  | none => exact then_err _ _
  | some a => exact h a hv

theorem Meets.mono {r : Outcome σ α} {Q Q' : σ → α → Prop} {E E' : σ → Prop} (h : r.Meets Q E)
    (hQ : ∀ w a, Q w a → Q' w a) (hE : ∀ w, E w → E' w) : r.Meets Q' E' :=
  ⟨fun a ha => hQ _ _ (h.1 a ha), fun hn => hE _ (h.2 hn)⟩

theorem Meets.and_then {r : Outcome σ α} {Q P : σ → α → Prop} {E : σ → Prop} (h : r.Meets Q E)
    (hP : r.Then P) : r.Meets (fun w a => Q w a ∧ P w a) E :=
  ⟨fun a ha => ⟨h.1 a ha, hP a ha⟩, h.2⟩

theorem Meets.and {r : Outcome σ α} {Q Q' : σ → α → Prop} {E E' : σ → Prop} (h : r.Meets Q E)
    (h' : r.Meets Q' E') : r.Meets (fun w a => Q w a ∧ Q' w a) fun w => E w ∧ E' w :=
  ⟨fun a ha => ⟨h.1 a ha, h'.1 a ha⟩, fun hn => ⟨h.2 hn, h'.2 hn⟩⟩

/-- One call after another. -/
theorem Meets.bind {r : Outcome σ α} {f : σ → α → Outcome σ β} {Q : σ → α → Prop}
    {Q' : σ → β → Prop} {E : σ → Prop} (h : r.Meets Q E) (hf : ∀ w a, Q w a → (f w a).Meets Q' E) :
    (r.bind f).Meets Q' E := by
  unfold Outcome.bind
  cases hv : r.val with
  | none => exact (meets_err _ _ _).mpr (h.2 hv)
  | some a => exact hf _ _ (h.1 a hv)

/-- One call after another, where more is known of the first. -/
theorem Meets.bind_then {r : Outcome σ α} {f : σ → α → Outcome σ β} {Q P : σ → α → Prop}
    {Q' : σ → β → Prop} {E : σ → Prop} (h : r.Meets Q E) (hP : r.Then P)
    (hf : ∀ w a, Q w a → P w a → (f w a).Meets Q' E) : (r.bind f).Meets Q' E :=
  (h.and_then hP).bind fun w a hw => hf w a hw.1 hw.2

/-- What holds either way holds of the state that is left. -/
theorem Meets.world {r : Outcome σ α} {I : σ → Prop} (h : r.Meets (fun w _ => I w) I) :
    I r.world := by
  cases hv : r.val with
  | none => exact h.2 hv
  | some a => exact h.1 a hv

theorem Meets.of_world {r : Outcome σ α} {I : σ → Prop} (h : I r.world) :
    r.Meets (fun w _ => I w) I := ⟨fun _ _ => h, fun _ => h⟩

/-- A call that cannot fail returns. -/
theorem Meets.returns {r : Outcome σ α} {Q : σ → α → Prop} (h : r.Meets Q fun _ => False) :
    ∃ a, r.val = some a ∧ Q r.world a := by
  cases hv : r.val with
  | none => exact absurd hv (fun hn => h.2 hn)
  | some a => exact ⟨a, rfl, h.1 a hv⟩

end Outcome

end Search
