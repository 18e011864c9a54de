import BranchingTubes.Proofs.BranchIsolation
import Mathlib

/-!
# The pen after some decays

Thickness and length are multiplied by their decays and by nothing else, so at the end of a
word each is the size at the start after as many decays as the live part of the word has
(`thickness_of_run`, `length_of_run`).  What cannot be drawn is replaced by zero where a
segment is drawn, and the turtle keeps its own size: that is why the law of the radius,
`interpretText_radius`, holds of a segment whatever was drawn before it.
-/

set_option autoImplicit false

namespace BranchingTubes

open Float.Model (UnpackedFloat)

/-- A size that cannot be drawn: a NaN, an infinity, zero, or less than zero. -/
def Degenerate (x : Float32) : Prop := x.isNaN ∨ x.isInf ∨ x == 0 ∨ x < 0

instance (x : Float32) : Decidable (Degenerate x) := inferInstanceAs (Decidable (_ ∨ _ ∨ _ ∨ _))

/-- A size is degenerate unless it is finite and above zero. -/
theorem degenerate_iff {x : Float32} : Degenerate x ↔ ¬ (x.isFinite ∧ 0 < x) := by
  have hnan : x.isNaN = x.toModel.unpack.isNaN := rfl
  have hinf : x.isInf = x.toModel.unpack.isInf := rfl
  have hfinite : x.isFinite = x.toModel.unpack.isFinite := rfl
  have hzero : (x == 0) = x.toModel.unpack.beq (.zero .positive) := rfl
  have hneg : x < 0 ↔ x.toModel.unpack.lt (.zero .positive) = true := decide_eq_true_iff
  have hpos : 0 < x ↔ UnpackedFloat.lt (.zero .positive) x.toModel.unpack = true :=
    decide_eq_true_iff
  unfold Degenerate
  rw [hnan, hinf, hfinite, hzero, hneg, hpos]
  cases x.toModel.unpack with
  | notANumber => decide
  | infinity sign => simp [UnpackedFloat.isInf, UnpackedFloat.isFinite]
  | zero sign => simp [UnpackedFloat.beq, UnpackedFloat.lt, UnpackedFloat.compare]
  | finite sign mantissa exponent pos =>
    cases sign <;>
      simp [UnpackedFloat.beq, UnpackedFloat.lt, UnpackedFloat.compare, UnpackedFloat.isNaN,
        UnpackedFloat.isInf, UnpackedFloat.isFinite]

/-- An extent is usable as it is unless it is degenerate, and zero if it is. -/
theorem usableExtent_eq (x : Float32) : usableExtent x = if Degenerate x then 0 else x := by
  unfold usableExtent
  by_cases hx : x.isFinite ∧ 0 < x
  · rw [if_pos hx, if_neg (mt degenerate_iff.mp (not_not.mpr hx))]
  · rw [if_neg hx, if_pos (degenerate_iff.mpr hx)]

/-- A usable extent is finite, and above zero unless it is zero with a plus sign. -/
theorem usableExtent_nonneg (x : Float32) :
    (usableExtent x).isFinite ∧ (usableExtent x = 0 ∨ 0 < usableExtent x) := by
  unfold usableExtent
  split
  next h => exact ⟨h.1, .inr h.2⟩
  next => exact ⟨rfl, .inl rfl⟩

/-- A size after so many decays, each a multiplication with one rounding. -/
def decayed (factor : Float32) (count : ℕ) (size : Float32) : Float32 :=
  (fun size => size * factor)^[count] size

namespace Machine

variable {s : Setup} {index : ℕ} {m m' : Machine} {is : List Instruction} {i : Instruction}

/-- A feature of the turtle to which instructions of one kind do the same each time, and to
which no others do anything except those that close a branch, changes in a run without
closed branches as often as an instruction of this kind is obeyed. -/
theorem iterate_of_run {β : Type} (f : Turtle → β) (g : β → β) {kind : Instruction → Bool}
    (hobey : ∀ i, Marks.instruction.closes i = false → ∀ m : Machine,
      f (m.obey s i).turtle = if kind i then g (f m.turtle) else f m.turtle)
    (h : run s index m is = .ok m') :
    (∀ i ∈ is, Marks.instruction.closes i = false) →
      f m'.turtle = g^[is.countP kind] (f m.turtle) := by
  refine run_induction ?_ (fun is i mid _ _ ih => ?_) h
  · intro _
    rfl
  · intro hclosed
    have hbefore : f mid.turtle = g^[is.countP kind] (f m.turtle) := by
      apply ih
      intro j hj
      exact hclosed j (by simp [hj])
    rw [hobey i (hclosed i (by simp)), hbefore, List.countP_append, List.countP_singleton]
    split
    · rw [Function.iterate_succ_apply']
    · rfl

/-- At the end of a run, such a feature has changed once for each live instruction of the
kind. -/
theorem iterate_of_live {β : Type} (f : Turtle → β) (g : β → β) {kind : Instruction → Bool}
    (hobey : ∀ i, Marks.instruction.closes i = false → ∀ m : Machine,
      f (m.obey s i).turtle = if kind i then g (f m.turtle) else f m.turtle)
    (h : run s 0 (start s) is = .ok m) :
    f m.turtle = g^[(Marks.instruction.live is).countP kind] (f s.turtle) := by
  obtain ⟨hclosed, m', hm', hshadow⟩ := run_live h
  rw [← hshadow.turtle]
  exact iterate_of_run f g hobey hm' hclosed

/-- The thickness at the end of a run has decayed as often as a live instruction says so. -/
theorem thickness_of_run (h : run s 0 (start s) is = .ok m) :
    m.turtle.thickness = decayed s.parameters.thicknessDecay
      ((Marks.instruction.live is).countP fun i => i.command == .decayThickness)
      s.parameters.thickness := by
  refine iterate_of_live Turtle.thickness _ ?_ h
  intro i hclosed m
  unfold obey
  cases hi : i.command with
  | closeBranch => simp [Marks.instruction_closes_iff.mpr hi] at hclosed
  | _ => rfl

/-- The length at the end of a run has decayed as often as a live instruction says so. -/
theorem length_of_run (h : run s 0 (start s) is = .ok m) :
    m.turtle.length = decayed s.parameters.lengthDecay
      ((Marks.instruction.live is).countP fun i => i.command == .decayLength)
      s.parameters.length := by
  refine iterate_of_live Turtle.length _ ?_ h
  intro i hclosed m
  unfold obey
  cases hi : i.command with
  | closeBranch => simp [Marks.instruction_closes_iff.mpr hi] at hclosed
  | _ => rfl

/-- Every radius is a usable extent. -/
theorem radius_of_run (h : run s 0 (start s) is = .ok m) :
    ∀ segment ∈ m.mesh.segments, ∃ x, segment.radius = usableExtent x := by
  refine run_induction ?_ (fun is i mid _ _ ih => ?_) h
  · simp [start, Mesh.empty]
  · intro segment hsegment
    by_cases hi : i.command = .draw
    · rw [mesh_obey_of_draw hi, ← Array.mem_toList_iff, Mesh.segments_addTube, List.mem_append,
        List.mem_singleton, Array.mem_toList_iff] at hsegment
      rcases hsegment with hold | rfl
      · exact ih segment hold
      · exact ⟨_, rfl⟩
    · rw [mesh_obey_of_ne_draw hi] at hsegment
      exact ih segment hsegment

end Machine

namespace Setup

/-- One symbol stands for the decay of the thickness. -/
theorem ofSymbol_beq_decayThickness (c : Char) :
    (Command.ofSymbol c == .decayThickness) = (c == '#') := by
  unfold Command.ofSymbol
  split <;> simp_all

/-- One symbol stands for the decay of the length. -/
theorem ofSymbol_beq_decayLength (c : Char) :
    (Command.ofSymbol c == .decayLength) = (c == '$') := by
  unfold Command.ofSymbol
  split <;> simp_all

/-- Counting the instructions with some command is counting the symbols that stand for it. -/
theorem countP_command_text {command : Command} {c : Char}
    (h : ∀ d, (Command.ofSymbol d == command) = (d == c)) (w : List Char) :
    (w.map symbolInstruction).countP (fun i => i.command == command) = w.count c := by
  rw [List.countP_map]
  unfold List.count
  congr 1
  funext d
  exact h d

/-- The thickness at the end of a word has decayed as often as the live part has the symbol for
it. -/
theorem thickness_eq {s : Setup} {word : String} {m : Machine}
    (h : Machine.run s 0 (.start s) (word.toList.map symbolInstruction) = .ok m) :
    m.turtle.thickness = decayed s.parameters.thicknessDecay ((liveText word).toList.count '#')
      s.parameters.thickness := by
  rw [Machine.thickness_of_run h, ← map_toList_liveText,
    countP_command_text ofSymbol_beq_decayThickness]

/-- The length at the end of a word has decayed as often as the live part has the symbol for it. -/
theorem length_eq {s : Setup} {word : String} {m : Machine}
    (h : Machine.run s 0 (.start s) (word.toList.map symbolInstruction) = .ok m) :
    m.turtle.length = decayed s.parameters.lengthDecay ((liveText word).toList.count '$')
      s.parameters.length := by
  rw [Machine.length_of_run h, ← map_toList_liveText,
    countP_command_text ofSymbol_beq_decayLength]

/-- **The radius of a segment** is half the thickness at the start after as many decays as
are live before the symbol that draws it, or zero if that cannot be drawn.  It is therefore
finite, and above zero or zero.  The turtle itself keeps thickness and length as the decays
make them. -/
theorem interpretText_radius {s : Setup} {word : String} {r : Interpretation}
    (h : s.interpretText word = .ok r) :
    (∀ u v : String, word = u ++ "F" ++ v →
      let half := decayed s.parameters.thicknessDecay ((liveText u).toList.count '#')
        s.parameters.thickness / 2
      ∃ segment, r.mesh.segments[u.toList.count 'F']? = some segment ∧
        segment.radius = if Degenerate half then 0 else half) ∧
    (∀ segment ∈ r.mesh.segments,
      segment.radius.isFinite ∧ (segment.radius = 0 ∨ 0 < segment.radius)) ∧
    r.turtle.thickness = decayed s.parameters.thicknessDecay ((liveText word).toList.count '#')
      s.parameters.thickness ∧
    r.turtle.length = decayed s.parameters.lengthDecay ((liveText word).toList.count '$')
      s.parameters.length := by
  obtain ⟨-, m, hrun, rfl⟩ := interpret_eq_ok_iff.mp h
  refine ⟨?_, ?_, thickness_eq hrun, length_eq hrun⟩
  · rintro u v rfl half
    have hword : (u ++ "F" ++ v).toList.map symbolInstruction =
        u.toList.map symbolInstruction ++
          symbolInstruction 'F' :: v.toList.map symbolInstruction := by
      simp
    rw [hword] at hrun
    obtain ⟨mid, hmid, -⟩ := Machine.run_append_ok_iff.mp hrun
    obtain ⟨hsegment, -⟩ := Machine.emitted_of_run hrun rfl hmid
    rw [Marks.countP_draws_text] at hsegment
    refine ⟨_, hsegment, ?_⟩
    rw [← usableExtent_eq]
    unfold half
    rw [← thickness_eq hmid]
    rfl
  · intro segment hsegment
    obtain ⟨x, hx⟩ := Machine.radius_of_run hrun segment hsegment
    rw [hx]
    exact usableExtent_nonneg x

/-- A decay that turns the sign, so that every other thickness cannot be drawn.  The branch
draws with the sign turned back, and after it the sign is again that of the trunk. -/
theorem interpretText_radius_alternating :
    let s : Setup := ⟨{ Parameters.standard with thickness := 2, thicknessDecay := -1 }, .standard⟩
    ∃ r, s.interpretText "F#F[#F]F$" = .ok r ∧
      (∀ segment ∈ r.mesh.segments,
        segment.radius.isFinite ∧ (segment.radius = 0 ∨ 0 < segment.radius)) ∧
      (∃ trunk, r.mesh.segments[0]? = some trunk ∧ trunk.radius = 1) ∧
      (∃ clamped, r.mesh.segments[1]? = some clamped ∧ clamped.radius = 0) ∧
      (∃ branch, r.mesh.segments[2]? = some branch ∧ branch.radius = 1) ∧
      (∃ clamped, r.mesh.segments[3]? = some clamped ∧ clamped.radius = 0) ∧
      r.turtle.thickness = -2 ∧ r.turtle.length = 0.8 := by
  intro s
  obtain ⟨r, hr⟩ : ∃ r, s.interpretText "F#F[#F]F$" = .ok r := exists_result (by decide +kernel)
  obtain ⟨hradius, husable, hthickness, hlength⟩ := interpretText_radius hr
  obtain ⟨trunk, htrunk, htrunkradius⟩ := hradius "" "#F[#F]F$" (by decide +kernel)
  obtain ⟨second, hsecond, hsecondradius⟩ := hradius "F#" "[#F]F$" (by decide +kernel)
  obtain ⟨branch, hbranch, hbranchradius⟩ := hradius "F#F[#" "]F$" (by decide +kernel)
  obtain ⟨last, hlast, hlastradius⟩ := hradius "F#F[#F]" "$" (by decide +kernel)
  refine ⟨r, hr, husable, ⟨trunk, htrunk, ?_⟩, ⟨second, hsecond, ?_⟩, ⟨branch, hbranch, ?_⟩,
    ⟨last, hlast, ?_⟩, ?_, ?_⟩
  · rw [htrunkradius]
    decide +kernel
  · rw [hsecondradius]
    decide +kernel
  · rw [hbranchradius]
    decide +kernel
  · rw [hlastradius]
    decide +kernel
  · rw [hthickness]
    decide +kernel
  · rw [hlength]
    decide +kernel

end Setup

end BranchingTubes
