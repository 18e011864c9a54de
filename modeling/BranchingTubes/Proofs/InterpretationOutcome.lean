import BranchingTubes.Proofs.MachineSteps
import Mathlib

/-!
# The exact outcome of an interpretation

Whether an interpretation succeeds, and with which error it fails, can be read off the
setup and three kinds of symbols.  `Marks.offence?` says with which error a symbol offends,
from nothing but the symbols before it, and `Setup.Outcome` puts the causes of failure in
order: a setup that is not sound, or else the first symbol that offends; without either
the interpretation succeeds with the branches that the word leaves open.

The induction is on the word from its end.  A machine that has obeyed a word has saved as
many turtles as the word leaves branches open and has the vertices of as many tubes as the
word draws, so it refuses the next symbol exactly when that symbol offends
(`refusal?_eq_offence?`).
-/

set_option autoImplicit false

namespace BranchingTubes

/-! ## Symbols that offend -/

namespace Marks

variable {α β : Type} (k : Marks α)

/-- How many branches are open before the symbol at an index. -/
def openBefore (w : List α) (index : ℕ) : ℤ := k.excess (w.take index)

/-- How many segments are drawn before the symbol at an index. -/
def drawnBefore (w : List α) (index : ℕ) : ℕ := (w.take index).countP k.draws

/-- The error with which a symbol at an index offends, if it does, when so many branches are
open and so many segments drawn before it. -/
def judge (settings : TubeSettings) (index : ℕ) (branches : ℤ) (drawn : ℕ) (c : α) :
    Option InterpretationError :=
  let limit := settings.depthLimit.toNat
  let vertices := 2 * settings.sides.toNat * (drawn + 1)
  if k.opens c ∧ limit ≤ branches then some (.tooDeep index limit)
  else if k.closes c ∧ branches = 0 then some (.nothingToClose index)
  else if k.draws c ∧ 2 ^ 32 - 1 < vertices then some (.tooManyVertices vertices)
  else none

/-- The error with which the symbol at an index of a word offends, if it does. -/
def offence? (settings : TubeSettings) (w : List α) (index : ℕ) : Option InterpretationError :=
  w[index]?.bind (k.judge settings index (k.openBefore w index) (k.drawnBefore w index))

/-- An error is that of the first symbol that offends. -/
def FirstOffence (settings : TubeSettings) (w : List α) (e : InterpretationError) : Prop :=
  ∃ index, k.offence? settings w index = some e ∧ ∀ j < index, k.offence? settings w j = none

variable {k} {settings : TubeSettings} {w : List α} {index : ℕ} {e e' : InterpretationError}

/-- What follows a word does not change whether a symbol of the word offends. -/
theorem offence?_append (v : List α) (h : index < w.length) :
    k.offence? settings (w ++ v) index = k.offence? settings w index := by
  rw [offence?, offence?, openBefore, drawnBefore, List.take_append_of_le_length h.le,
    List.getElem?_append_left h, openBefore, drawnBefore]

/-- A symbol offends in a translated word if it does so for the translated marks. -/
theorem offence?_map (k : Marks β) (f : α → β) (w : List α) :
    k.offence? settings (w.map f) index = (k.comap f).offence? settings w index := by
  rw [offence?, offence?, openBefore, drawnBefore, ← List.map_take, excess_map, List.countP_map,
    List.getElem?_map]
  cases w[index]? <;> rfl

/-- Nothing offends beyond the end of a word. -/
theorem offence?_eq_none_of_length_le (h : w.length ≤ index) :
    k.offence? settings w index = none := by
  simp [offence?, List.getElem?_eq_none h]

/-- A word has at most one first offence. -/
theorem FirstOffence.unique (h : k.FirstOffence settings w e)
    (h' : k.FirstOffence settings w e') : e = e' := by
  obtain ⟨i, hi, hbefore⟩ := h
  obtain ⟨i', hi', hbefore'⟩ := h'
  rcases lt_trichotomy i i' with hlt | rfl | hgt
  · simp [hbefore' i hlt] at hi
  · exact Option.some.inj (hi.symm.trans hi')
  · simp [hbefore i' hgt] at hi'

end Marks

/-! ## The machine refuses what offends -/

namespace Machine

variable {s : Setup} {m : Machine} {is : List Instruction}

/-- A machine that has obeyed some instructions refuses the next one exactly when it
offends. -/
theorem refusal?_eq_offence? (h : run s 0 (start s) is = .ok m) (i : Instruction) :
    m.refusal? s is.length i =
      Marks.instruction.offence? s.settings (is ++ [i]) is.length := by
  have hopen : Marks.instruction.openBefore (is ++ [i]) is.length = m.saved.length := by
    simpa [Marks.openBefore, start] using (saved_length_of_run h).symm
  have hdrawn : Marks.instruction.drawnBefore (is ++ [i]) is.length =
      is.countP Marks.instruction.draws := by
    simp [Marks.drawnBefore]
  have hcount : m.mesh.vertexCount + 2 * s.settings.sides.toNat =
      2 * s.settings.sides.toNat * (is.countP Marks.instruction.draws + 1) := by
    rw [vertexCount_of_start h, Nat.mul_add, Nat.mul_one]
  have hhere : (is ++ [i])[is.length]? = some i := by simp
  have hmax : maxVertices = 2 ^ 32 - 1 := rfl
  rw [Marks.offence?, hhere, hopen, hdrawn, Option.bind_some, refusal?, hcount, hmax, Marks.judge]
  generalize is.countP Marks.instruction.draws = drawn
  obtain ⟨command, segmentLength⟩ := i
  cases command <;> simp [Marks.instruction, Marks.command, Marks.comap]

/-- A run fails with the error of the first instruction that offends, and succeeds only if
none does. -/
theorem run_outcome (s : Setup) (is : List Instruction) :
    (∀ e, run s 0 (start s) is = .error e → Marks.instruction.FirstOffence s.settings is e) ∧
      ∀ m, run s 0 (start s) is = .ok m →
        ∀ index, Marks.instruction.offence? s.settings is index = none := by
  induction is using List.reverseRecOn with
  | nil => exact ⟨by simp [run], fun _ _ _ => by simp [Marks.offence?]⟩
  | append_singleton is i ih =>
    obtain ⟨ihfail, ihok⟩ := ih
    have hrun := run_append s 0 (start s) is [i]
    rw [Nat.zero_add] at hrun
    cases his : run s 0 (start s) is with
    | error e =>
      -- The error stands, and so does the first symbol that offends.
      obtain ⟨index, hindex, hbefore⟩ := ihfail e his
      have hlt : index < is.length := by
        by_contra hle
        rw [Marks.offence?_eq_none_of_length_le (by omega)] at hindex
        simp at hindex
      have hfirst : Marks.instruction.FirstOffence s.settings (is ++ [i]) e := by
        refine ⟨index, by rw [Marks.offence?_append _ hlt, hindex], fun j hj => ?_⟩
        rw [Marks.offence?_append _ (hj.trans hlt), hbefore j hj]
      simp only [his, Except.bind] at hrun
      rw [hrun]
      exact ⟨fun e' he' => Except.error.inj he' ▸ hfirst, by simp⟩
    | ok m =>
      have hbefore : ∀ j < is.length,
          Marks.instruction.offence? s.settings (is ++ [i]) j = none := fun j hj => by
        rw [Marks.offence?_append _ hj, ihok m his]
      have hlast := refusal?_eq_offence? his i
      simp only [his, Except.bind, run_singleton] at hrun
      rw [hrun]
      refine ⟨fun e he => ?_, fun m' hm' index => ?_⟩
      · rw [step_eq_error_iff, hlast] at he
        exact ⟨is.length, he, hbefore⟩
      · rw [step_eq_ok_iff, hlast] at hm'
        rcases lt_trichotomy index is.length with hlt | rfl | hgt
        · exact hbefore index hlt
        · exact hm'.1
        · exact Marks.offence?_eq_none_of_length_le (by simpa using hgt)

end Machine

/-! ## Sound setups -/

namespace Setup

/-- The parameters that must be finite, by name and in the order they are looked at. -/
def checkedFields (s : Setup) : List (String × Float32) :=
  [("delta_inclination", s.parameters.inclination), ("delta_azimuth", s.parameters.azimuth),
    ("initial_thickness", s.parameters.thickness),
    ("thickness_decay", s.parameters.thicknessDecay),
    ("initial_length", s.parameters.length), ("length_decay", s.parameters.lengthDecay)]

/-- An orientation can be normalised: it is finite and not too short. -/
def Usable (q : Rotation) : Prop :=
  (q.x.isFinite ∧ q.y.isFinite ∧ q.z.isFinite ∧ q.w.isFinite) ∧ ¬ q.lengthSquared < 1e-12

/-- Nothing is wrong with a setup. -/
structure Sound (s : Setup) : Prop where
  sides : 3 ≤ s.settings.sides.toNat
  parameters : ∀ field ∈ s.checkedFields, field.2.isFinite
  orientation : Usable s.settings.orientation

/-- What is wrong with a setup, the sides before the parameters and these before the
orientation. -/
inductive Fault (s : Setup) : InterpretationError → Prop where
  | tooFewSides (few : s.settings.sides.toNat < 3) :
      Fault s (.tooFewSides s.settings.sides.toNat)
  | nonFiniteParameter (sides : 3 ≤ s.settings.sides.toNat)
      {before after : List (String × Float32)} {name : String} {value : Float32}
      (fields : s.checkedFields = before ++ (name, value) :: after)
      (finite_before : ∀ field ∈ before, field.2.isFinite) (not_finite : ¬ value.isFinite) :
      Fault s (.nonFiniteParameter name value)
  | degenerateRotation (sides : 3 ≤ s.settings.sides.toNat)
      (parameters : ∀ field ∈ s.checkedFields, field.2.isFinite)
      (unusable : ¬ Usable s.settings.orientation) :
      Fault s (.degenerateRotation s.settings.orientation)

/-- What an interpretation of a word gives: an error, or the number of branches left open. -/
inductive Outcome {α : Type} (k : Marks α) (s : Setup) (w : List α) :
    Except InterpretationError ℕ → Prop where
  | fault {e : InterpretationError} (wrong : s.Fault e) : Outcome k s w (.error e)
  | offence (sound : s.Sound) {e : InterpretationError} (first : k.FirstOffence s.settings w e) :
      Outcome k s w (.error e)
  | success (sound : s.Sound) (none_offends : ∀ index, k.offence? s.settings w index = none)
      {branches : ℕ} (left_open : (branches : ℤ) = k.openBefore w w.length) :
      Outcome k s w (.ok branches)

variable {s : Setup} {e : InterpretationError}

/-- A rotation is usable unless the check refuses it. -/
theorem usable_iff {q : Rotation} :
    Usable q ↔ ¬ (!q.isFinite ∨ q.lengthSquared < leastSquaredLength) := by
  simp [Usable, Rotation.isFinite, leastSquaredLength, and_assoc]

/-- The parameter that is reported is the first one, in the order of the check, that is not
finite. -/
theorem firstNonFinite?_eq_some_iff {name : String} {value : Float32} :
    s.parameters.firstNonFinite? = some (name, value) ↔
      ∃ before after, s.checkedFields = before ++ (name, value) :: after ∧
        (∀ field ∈ before, field.2.isFinite) ∧ ¬ value.isFinite := by
  rw [Parameters.firstNonFinite?, List.find?_eq_some_iff_append]
  simp only [Bool.not_eq_true', Bool.not_not]
  constructor
  · rintro ⟨hbad, before, after, hfields, hbefore⟩
    exact ⟨before, after, hfields, hbefore, by simpa using hbad⟩
  · rintro ⟨before, after, hfields, hbefore, hbad⟩
    exact ⟨by simpa using hbad, before, after, hfields, hbefore⟩

/-- No parameter is reported if all are finite. -/
theorem firstNonFinite?_eq_none_iff :
    s.parameters.firstNonFinite? = none ↔ ∀ field ∈ s.checkedFields, field.2.isFinite := by
  rw [Parameters.firstNonFinite?, List.find?_eq_none]
  simp only [Bool.not_eq_true', Bool.not_eq_false]
  rfl

/-- Both angles that turns are multiples of are among the checked parameters. -/
theorem isFinite_steps (h : ∀ field ∈ s.checkedFields, field.2.isFinite) :
    s.parameters.inclination.isFinite = true ∧ s.parameters.azimuth.isFinite = true :=
  ⟨h ("delta_inclination", s.parameters.inclination) (by simp [checkedFields]),
    h ("delta_azimuth", s.parameters.azimuth) (by simp [checkedFields])⟩

/-- A fault of the setup is the one that is reported. -/
theorem fault?_of_fault (h : s.Fault e) : s.fault? = some e := by
  cases h with
  | tooFewSides few => simp [fault?, few]
  | nonFiniteParameter sides fields finite_before not_finite =>
    have hfirst := firstNonFinite?_eq_some_iff.mpr ⟨_, _, fields, finite_before, not_finite⟩
    simp [fault?, not_lt.mpr sides, hfirst]
  | degenerateRotation sides parameters unusable =>
    have hfirst := firstNonFinite?_eq_none_iff.mpr parameters
    rw [usable_iff, not_not] at unusable
    simp only [fault?, if_neg (not_lt.mpr sides), hfirst, if_pos unusable]

/-- Nothing is reported of a sound setup. -/
theorem fault?_of_sound (h : s.Sound) : s.fault? = none := by
  have hfirst := firstNonFinite?_eq_none_iff.mpr h.parameters
  have husable := usable_iff.mp h.orientation
  simp only [fault?, if_neg (not_lt.mpr h.sides), hfirst, if_neg husable]

/-- A setup has a fault or is sound. -/
theorem fault_or_sound (s : Setup) : (∃ e, s.Fault e) ∨ s.Sound := by
  by_cases hsides : s.settings.sides.toNat < 3
  · exact .inl ⟨_, .tooFewSides hsides⟩
  have hsides := not_lt.mp hsides
  cases hfirst : s.parameters.firstNonFinite? with
  | some field =>
    obtain ⟨before, after, hfields, hbefore, hbad⟩ := firstNonFinite?_eq_some_iff.mp hfirst
    exact .inl ⟨_, .nonFiniteParameter hsides hfields hbefore hbad⟩
  | none =>
    have hfields := firstNonFinite?_eq_none_iff.mp hfirst
    by_cases husable : Usable s.settings.orientation
    · exact .inr ⟨hsides, hfields, husable⟩
    · exact .inl ⟨_, .degenerateRotation hsides hfields husable⟩

/-- A setup of which nothing is reported is sound. -/
theorem sound_of_fault?_eq_none (h : s.fault? = none) : s.Sound := by
  rcases fault_or_sound s with ⟨e, he⟩ | hsound
  · rw [fault?_of_fault he] at h
    exact absurd h (by simp)
  · exact hsound

/-- The outcome of an interpretation, as a relation, is what interpreting gives. -/
theorem outcome_iff_of_instructions {is : List Instruction} {result : Except InterpretationError ℕ} :
    (s.interpret is).map Interpretation.openBranches = result ↔
      Outcome Marks.instruction s is result := by
  obtain ⟨hfail, hok⟩ := Machine.run_outcome s is
  have hleft {m : Machine} (hrun : Machine.run s 0 (.start s) is = .ok m) :
      (m.saved.length : ℤ) = Marks.instruction.openBefore is is.length := by
    simpa [Marks.openBefore, Machine.start] using Machine.saved_length_of_run hrun
  constructor
  · rintro rfl
    rcases fault_or_sound s with ⟨e, he⟩ | hsound
    · simp only [interpret, fault?_of_fault he]
      exact .fault he
    · simp only [interpret, fault?_of_sound hsound]
      cases hrun : Machine.run s 0 (.start s) is with
      | error e => exact .offence hsound (hfail e hrun)
      | ok m => exact .success hsound (hok m hrun) (hleft hrun)
  · intro h
    cases h with
    | fault wrong =>
      simp only [interpret, fault?_of_fault wrong]
      rfl
    | offence sound first =>
      simp only [interpret, fault?_of_sound sound]
      cases hrun : Machine.run s 0 (.start s) is with
      | error e => rw [(hfail e hrun).unique first]; rfl
      | ok m =>
        obtain ⟨index, hindex, -⟩ := first
        simp [hok m hrun index] at hindex
    | success sound none_offends left_open =>
      simp only [interpret, fault?_of_sound sound]
      cases hrun : Machine.run s 0 (.start s) is with
      | error e =>
        obtain ⟨index, hindex, -⟩ := hfail e hrun
        simp [none_offends index] at hindex
      | ok m =>
        have := hleft hrun
        simp only [Except.map, Machine.result, Except.ok.injEq]
        omega

/-- The outcome for a translated word is that of the word for the translated marks. -/
theorem outcome_map_iff {α β : Type} (k : Marks β) (f : α → β) (w : List α)
    {result : Except InterpretationError ℕ} :
    Outcome k s (w.map f) result ↔ Outcome (k.comap f) s w result := by
  have hopen : k.openBefore (w.map f) (w.map f).length = (k.comap f).openBefore w w.length := by
    rw [Marks.openBefore, ← List.map_take, Marks.excess_map, List.length_map, Marks.openBefore]
  constructor
  · intro h
    cases h with
    | fault wrong => exact .fault wrong
    | offence sound first =>
      simp only [Marks.FirstOffence, Marks.offence?_map] at first
      exact .offence sound first
    | success sound none_offends left_open =>
      simp only [Marks.offence?_map] at none_offends
      exact .success sound none_offends (hopen ▸ left_open)
  · intro h
    cases h with
    | fault wrong => exact .fault wrong
    | offence sound first =>
      refine .offence sound ?_
      simpa only [Marks.FirstOffence, Marks.offence?_map] using first
    | success sound none_offends left_open =>
      refine .success sound ?_ (hopen ▸ left_open)
      simpa only [Marks.offence?_map] using none_offends

/-- **The exact outcome of an interpretation**, of a word over the drawing alphabet by its
symbols and of the modules of a derivation by the commands that they are mapped to. -/
theorem interpret_outcome (s : Setup) :
    (∀ word result, (s.interpretText word).map Interpretation.openBranches = result ↔
      Outcome Marks.text s word.toList result) ∧
    ∀ commands d result,
      (s.interpretModules commands d).map Interpretation.openBranches = result ↔
        Outcome Marks.command s (d.modules.toList.map fun m => commands.get m.symbol) result := by
  refine ⟨fun word result => ?_, fun commands d result => ?_⟩
  · rw [interpretText, outcome_iff_of_instructions, outcome_map_iff, ← Marks.text_eq_comap]
  · rw [interpretModules, outcome_iff_of_instructions, outcome_map_iff, outcome_map_iff]
    rfl

end Setup

end BranchingTubes
