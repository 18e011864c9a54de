import BranchingTubes.Proofs.CoupledRuns
import BranchingTubes.Proofs.InterpretationOutcome
import BranchingTubes.Proofs.SingleArithmetic
import Mathlib

/-!
# Turns in a mirror

The angle of a turn is a product of a step, which is a parameter, and a factor, which the symbol
gives.  Both change their signs if the step is negated and the symbols of the two opposite turns are
exchanged, so the angle keeps its bits (`HasValue.neg_mul_neg`) and each instruction does the same
to every machine (`Machine.step_mirrored`).  This holds of inclination and azimuth independently:
a `Mirror` says which of them it reverses.
-/

set_option autoImplicit false

namespace BranchingTubes

/-- The number itself, or its negative. -/
def negatedIf (negated : Bool) (x : Float32) : Float32 := if negated then -x else x

/-- A number stays finite without its sign or with it. -/
theorem isFinite_neg {x : Float32} (h : x.isFinite = true) : (-x).isFinite = true := by
  obtain ⟨r, hr⟩ := exists_hasValue h
  exact hr.neg.isFinite

/-- A number stays finite whether its sign is turned or not. -/
theorem isFinite_negatedIf {x : Float32} (negated : Bool) (h : x.isFinite = true) :
    (negatedIf negated x).isFinite = true := by
  cases negated
  · exact h
  · exact isFinite_neg h

/-- Turning the signs of both factors leaves the product as it is, bit by bit. -/
theorem negatedIf_mul_negatedIf {x y : Float32} (negated : Bool) (hx : x.isFinite = true)
    (hy : y.isFinite = true) : negatedIf negated x * negatedIf negated y = x * y := by
  cases negated
  · rfl
  · obtain ⟨r, hr⟩ := exists_hasValue hx
    obtain ⟨q, hq⟩ := exists_hasValue hy
    exact hr.neg_mul_neg hq

/-- Which of the two turns are reversed. -/
structure Mirror where
  inclination : Bool
  azimuth : Bool

namespace Mirror

/-- The steps of the turns that are reversed are negated. -/
def setup (k : Mirror) (s : Setup) : Setup :=
  { s with
    parameters :=
      { s.parameters with
        inclination := negatedIf k.inclination s.parameters.inclination
        azimuth := negatedIf k.azimuth s.parameters.azimuth } }

/-- The symbols of the turns that are reversed are exchanged. -/
def symbol (k : Mirror) : Char → Char
  | '+' => if k.inclination then '-' else '+'
  | '-' => if k.inclination then '+' else '-'
  | '>' => if k.azimuth then '<' else '>'
  | '<' => if k.azimuth then '>' else '<'
  | c => c

/-- A word with every symbol mirrored. -/
def word (k : Mirror) (w : String) : String := String.ofList (w.toList.map k.symbol)

/-- A command with its turn taken the other way round, if it is mirrored. -/
def command (k : Mirror) : Command → Command
  | .incline factor => .incline (negatedIf k.inclination factor)
  | .azimuth factor => .azimuth (negatedIf k.azimuth factor)
  | c => c

/-- The command of a mirrored symbol is the mirrored command of the symbol. -/
theorem ofSymbol_symbol (k : Mirror) (c : Char) :
    Command.ofSymbol (k.symbol c) = k.command (Command.ofSymbol c) := by
  have hone : - -(1 : Float32) = 1 := by decide +kernel
  unfold symbol
  split
  case h_1 => cases hk : k.inclination <;> simp [Command.ofSymbol, command, negatedIf, hk]
  case h_2 => cases hk : k.inclination <;> simp [Command.ofSymbol, command, negatedIf, hk, hone]
  case h_3 => cases hk : k.azimuth <;> simp [Command.ofSymbol, command, negatedIf, hk]
  case h_4 => cases hk : k.azimuth <;> simp [Command.ofSymbol, command, negatedIf, hk, hone]
  case h_5 =>
    unfold Command.ofSymbol
    split <;> first | rfl | contradiction

end Mirror

/-- The factor of a command that turns. -/
def Command.factor? : Command → Option Float32
  | .incline factor => some factor
  | .azimuth factor => some factor
  | _ => none

/-- The factors of the alphabet are finite. -/
theorem Command.isFinite_factor_ofSymbol (c : Char) :
    ∀ factor ∈ (Command.ofSymbol c).factor?, factor.isFinite = true := by
  have hone : (1 : Float32).isFinite = true := by decide +kernel
  unfold Command.ofSymbol
  split <;> simp [factor?, hone, isFinite_neg]

namespace Machine

/-- Under finite steps and a finite factor, a command does the same in the mirror. -/
theorem step_mirrored (k : Mirror) {s : Setup} {c : Command} (length : Option Float32)
    (hsteps : ∀ field ∈ s.checkedFields, field.2.isFinite)
    (hfactor : ∀ factor ∈ c.factor?, factor.isFinite = true) (index : ℕ) (m : Machine) :
    m.step (k.setup s) index ⟨k.command c, length⟩ = m.step s index ⟨c, length⟩ := by
  obtain ⟨hinclination, hazimuth⟩ := Setup.isFinite_steps hsteps
  cases c with
  | incline factor =>
    have hangle := negatedIf_mul_negatedIf k.inclination hinclination (hfactor factor rfl)
    simp only [step, Mirror.command, Mirror.setup, hangle]
  | azimuth factor =>
    have hangle := negatedIf_mul_negatedIf k.azimuth hazimuth (hfactor factor rfl)
    simp only [step, Mirror.command, Mirror.setup, hangle]
  | _ => rfl

end Machine

namespace Setup

open Machine

variable {s : Setup}

/-- A mirrored setup has the fault of the setup itself, if any. -/
theorem fault?_mirrored (k : Mirror) (h : ∀ field ∈ s.checkedFields, field.2.isFinite) :
    (k.setup s).fault? = s.fault? := by
  have hmirrored : ∀ field ∈ (k.setup s).checkedFields, field.2.isFinite := by
    simp only [checkedFields, List.forall_mem_cons] at h ⊢
    exact ⟨isFinite_negatedIf _ h.1, isFinite_negatedIf _ h.2.1, h.2.2⟩
  unfold fault?
  rw [firstNonFinite?_eq_none_iff.mpr h, firstNonFinite?_eq_none_iff.mpr hmirrored]
  rfl

/-- **Turns have a mirror symmetry.**  For every setup with finite parameters, every word and
either turn or both: with the step of the turn negated and its two symbols exchanged, an
interpretation gives the same error or the same mesh, turtle and number of open branches. -/
theorem interpretText_mirrored (s : Setup) (h : ∀ field ∈ s.checkedFields, field.2.isFinite)
    (k : Mirror) (word : String) :
    (k.setup s).interpretText (k.word word) = s.interpretText word := by
  have hrun : run (k.setup s) 0 (start (k.setup s))
        ((k.word word).toList.map symbolInstruction) =
      run s 0 (start s) (word.toList.map symbolInstruction) := by
    refine run_congr ?_ 0 (start s)
    rw [Mirror.word, String.toList_ofList, List.map_map, List.forall₂_map_left_iff,
      List.forall₂_map_right_iff, List.forall₂_same]
    intro c _ index m
    change m.step (k.setup s) index ⟨Command.ofSymbol (k.symbol c), none⟩ = _
    rw [k.ofSymbol_symbol]
    exact step_mirrored k none h (Command.isFinite_factor_ofSymbol c) index m
  rw [interpretText, interpretText, interpret, interpret, fault?_mirrored k h, hrun]

/-- Both turns reversed in a word that branches, and one of them in a word that fails. -/
theorem interpretText_mirrored_in_branch :
    (∀ field ∈ standard.checkedFields, field.2.isFinite) ∧
      (Mirror.setup ⟨true, true⟩ standard).interpretText "F-[<F+F]>F" =
        standard.interpretText "F+[>F-F]<F" ∧
      (standard.interpretText "F+[>F-F]<F").isOk ∧
      (Mirror.setup ⟨true, false⟩ standard).interpretText "F->]F" =
        .error (.nothingToClose 3) := by
  have hfinite : ∀ field ∈ standard.checkedFields, field.2.isFinite := by decide +kernel
  have hboth := interpretText_mirrored standard hfinite ⟨true, true⟩ "F+[>F-F]<F"
  have hone := interpretText_mirrored standard hfinite ⟨true, false⟩ "F+>]F"
  have hbothWord : Mirror.word ⟨true, true⟩ "F+[>F-F]<F" = "F-[<F+F]>F" := by decide +kernel
  have honeWord : Mirror.word ⟨true, false⟩ "F+>]F" = "F->]F" := by decide +kernel
  rw [hbothWord] at hboth
  rw [honeWord] at hone
  refine ⟨hfinite, hboth, by decide +kernel, ?_⟩
  rw [hone]
  decide +kernel

end Setup

end BranchingTubes
