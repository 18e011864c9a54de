import BranchingTubes.Proofs.InterpretationOutcome
import BranchingTubes.Proofs.LivePositions
import BranchingTubes.Proofs.TurtleReach
import Mathlib

/-!
# Finite geometry

Positions are sums of steps, and nothing keeps a sum of single-precision numbers finite if its
terms are large: two steps of `3e38` in one direction are enough (`meshOfText_overflows`).  A turtle
is never further away than the sum of the lengths of the segments that lead to it, each stretched a
little and added as single-precision numbers are (`Setup.reachAfter`, `Setup.steady_of_run`).  As
long as this sum and the radius stay finite together, so does the geometry
(`Setup.finite_meshOfText`).

The sum of any number of lengths stays finite if each of them is small: `2 ^ (e + 24)` does not
change when something of at most `2 ^ e` is added to it (`nearestSingle_add_half_le`).  This is why
words of any length give finite geometry if no segment is longer than `2 ^ 102`, whatever its
radius.
-/

set_option autoImplicit false

namespace BranchingTubes

/-! ## Finite meshes -/

/-- The coordinates of the vertices and of the ends of the segments are finite. -/
structure Mesh.AllFinite (m : Mesh) : Prop where
  vertices : ∀ v ∈ m.vertices, v.AllFinite
  segments : ∀ s ∈ m.segments, s.base.AllFinite ∧ s.tip.AllFinite

/-- A tube between two turtles is finite if their reach is after a stretched radius has been
added. -/
theorem Mesh.AllFinite.addTube {m : Mesh} {before after : Turtle} {reach x : Float32} {sides : ℕ}
    (h : m.AllFinite) (hbefore : before.Steady reach) (hafter : after.Steady reach)
    (hsides : 0 < sides.toUInt64.toNat)
    (hfinite : (reach + stretch * usableExtent (x / 2)).isFinite = true) :
    (m.addTube before after (usableExtent (x / 2)) sides).AllFinite := by
  obtain ⟨hreach, -⟩ := isFinite_of_isFinite_add hfinite
  constructor
  · intro v hv
    rw [← Array.mem_toList_iff, vertices_addTube] at hv
    rcases List.mem_append.mp hv with hold | hnew
    · exact h.vertices v (Array.mem_toList_iff.mp hold)
    · rcases List.mem_append.mp hnew with hlower | hupper
      · exact hbefore.ring hsides hfinite v hlower
      · exact hafter.ring hsides hfinite v hupper
  · intro s hs
    rw [← Array.mem_toList_iff, segments_addTube] at hs
    rcases List.mem_append.mp hs with hold | hnew
    · exact h.segments s (Array.mem_toList_iff.mp hold)
    · obtain rfl := List.mem_singleton.mp hnew
      exact ⟨hbefore.position.allFinite hreach, hafter.position.allFinite hreach⟩

/-! ## Reach -/

/-- How far a turtle may be from the origin, and how long its next segment is. -/
structure Reach where
  bound : Float32
  length : Float32

namespace Setup

variable {s : Setup} {word : String}

/-- What a symbol does to the reach: a segment adds its stretched length. -/
def reachStep (s : Setup) (r : Reach) (c : Char) : Reach :=
  match Command.ofSymbol c with
  | .draw => { r with bound := r.bound + stretch * usableExtent r.length }
  | .decayLength => { r with length := r.length * s.parameters.lengthDecay }
  | _ => r

/-- The reach after symbols of which none closes a branch. -/
def reachAlong (s : Setup) (cs : List Char) : Reach :=
  cs.foldl s.reachStep ⟨0, s.parameters.length⟩

/-- The reach after a word: the running sum of the stretched lengths of the segments on the way from
the origin to the turtle. -/
def reachAfter (s : Setup) (word : String) : Float32 := (s.reachAlong (liveText word).toList).bound

/-- The length of a segment that is drawn after a word. -/
def lengthAfter (s : Setup) (word : String) : Float32 :=
  usableExtent (decayed s.parameters.lengthDecay ((liveText word).toList.count '$')
    s.parameters.length)

/-- The radius of a segment that is drawn after a word. -/
def radiusAfter (s : Setup) (word : String) : Float32 :=
  usableExtent (decayed s.parameters.thicknessDecay ((liveText word).toList.count '#')
    s.parameters.thickness / 2)

/-- Something holds of the word before each symbol of a word that draws. -/
def AtDraws (P : String → Prop) (word : String) : Prop :=
  ∀ n < word.toList.length, word.toList[n]? = some 'F' → P (String.ofList (word.toList.take n))

instance (P : String → Prop) [DecidablePred P] (word : String) : Decidable (AtDraws P word) :=
  inferInstanceAs (Decidable (∀ n < _, _ → _))

/-- No segment that a word draws is longer than a bound. -/
def LengthsWithin (s : Setup) (bound : Float32) (word : String) : Prop :=
  AtDraws (fun before => s.lengthAfter before ≤ bound) word

/-- No segment that a word draws has a greater radius than a bound. -/
def RadiiWithin (s : Setup) (bound : Float32) (word : String) : Prop :=
  AtDraws (fun before => s.radiusAfter before ≤ bound) word

/-- The reach of every segment that a word draws is finite, with its stretched radius. -/
def StaysInReach (s : Setup) (word : String) : Prop :=
  AtDraws (fun before =>
    (s.reachAfter (before ++ "F") + stretch * s.radiusAfter before).isFinite = true) word

instance (s : Setup) (bound : Float32) (word : String) : Decidable (s.LengthsWithin bound word) :=
  inferInstanceAs (Decidable (AtDraws _ _))

instance (s : Setup) (bound : Float32) (word : String) : Decidable (s.RadiiWithin bound word) :=
  inferInstanceAs (Decidable (AtDraws _ _))

instance (s : Setup) (word : String) : Decidable (s.StaysInReach word) :=
  inferInstanceAs (Decidable (AtDraws _ _))

/-- What holds wherever a word draws holds wherever the beginning of the word does. -/
theorem AtDraws.of_append {P : String → Prop} {u v : List Char}
    (h : AtDraws P (String.ofList (u ++ v))) : AtDraws P (String.ofList u) := by
  intro n hn hF
  rw [String.toList_ofList] at hn hF ⊢
  have hlonger := h n (by simpa using Nat.lt_add_right _ hn)
  rw [String.toList_ofList, List.getElem?_append_left hn, List.take_append_of_le_length hn.le]
    at hlonger
  exact hlonger hF

/-- What holds wherever a word draws holds wherever its first symbols do. -/
theorem AtDraws.take {P : String → Prop} (h : AtDraws P word) (n : ℕ) :
    AtDraws P (String.ofList (word.toList.take n)) := by
  refine AtDraws.of_append (v := word.toList.drop n) ?_
  rwa [List.take_append_drop, String.ofList_toList]

/-- What holds wherever a word draws holds of what stands before a last symbol that draws. -/
theorem AtDraws.last {P : String → Prop} {cs : List Char}
    (h : AtDraws P (String.ofList (cs ++ ['F']))) : P (String.ofList cs) := by
  have hlast := h cs.length (by simp) (by simp)
  rwa [String.toList_ofList, List.take_left'] at hlast
  rfl

/-- The length that goes with the reach has decayed as often as a symbol says so. -/
theorem length_reachAlong (s : Setup) (cs : List Char) :
    (s.reachAlong cs).length =
      decayed s.parameters.lengthDecay (cs.count '$') s.parameters.length := by
  induction cs using List.reverseRecOn with
  | nil => rfl
  | append_singleton cs c ih =>
    have hcount := ofSymbol_beq_decayLength c
    rw [reachAlong, List.foldl_concat, ← reachAlong, List.count_append, List.count_singleton,
      ← hcount]
    unfold reachStep
    cases Command.ofSymbol c with
    | decayLength =>
      rw [ih, beq_self_eq_true, if_pos rfl, decayed, decayed, Function.iterate_succ_apply']
    | _ => exact ih

/-- A symbol that draws extends the reach of a word by the stretched length. -/
theorem reachAfter_draw (s : Setup) (cs : List Char) :
    s.reachAfter (String.ofList (cs ++ ['F'])) =
      s.reachAfter (String.ofList cs) + stretch * s.lengthAfter (String.ofList cs) := by
  have hlive : Marks.text.live (cs ++ ['F']) = Marks.text.live cs ++ ['F'] := by
    rw [Marks.live_concat, Marks.liveStep_of_not_closes rfl]
  simp only [reachAfter, lengthAfter, liveText, String.toList_ofList, hlive]
  rw [← length_reachAlong, reachAlong, List.foldl_concat]
  rfl

/-! ## Turtles within their reach -/

/-- Only one symbol draws. -/
theorem eq_of_ofSymbol_draw {c : Char} (h : Command.ofSymbol c = .draw) : c = 'F' := by
  unfold Command.ofSymbol at h
  split at h <;> simp_all

/-- A factor of a turn is one or minus one. -/
theorem exists_factor {factor : Float32} {c : Char}
    (h : Command.ofSymbol c = .incline factor ∨ Command.ofSymbol c = .azimuth factor) :
    ∃ x, HasValue factor x ∧ |x| ≤ 1 := by
  have hfactor : factor = 1 ∨ factor = -1 := by
    unfold Command.ofSymbol at h
    split at h <;> simp_all
  rcases hfactor with rfl | rfl
  · exact ⟨1, hasValue_one, by norm_num⟩
  · exact ⟨-1, hasValue_one.neg, by norm_num⟩

/-- The turtle of a machine is steady and has the length that goes with its reach. -/
structure Follows (r : Reach) (m : Machine) : Prop where
  steady : m.turtle.Steady r.bound
  length : m.turtle.length = r.length

/-- At the start there is no reach. -/
theorem follows_start (h : s.settings.orientation = .identity) :
    Follows (s.reachAlong []) (.start s) := by
  have hnormal : Rotation.identity.normalize = .identity := by decide +kernel
  refine ⟨?_, rfl⟩
  change (Turtle.atOrigin s.settings.orientation.normalize _ _).Steady 0
  rw [h, hnormal]
  exact Turtle.steady_atOrigin Rotation.rigid_identity _ _

/-- A symbol that does not close a branch keeps the turtle within its reach. -/
theorem Follows.obey {r : Reach} {m : Machine} {c : Char} (h : Follows r m)
    (hinclination : s.parameters.inclination.isFinite = true)
    (hazimuth : s.parameters.azimuth.isFinite = true)
    (hclosed : Command.ofSymbol c ≠ .closeBranch) :
    Follows (s.reachStep r c) (m.obey s (symbolInstruction c)) := by
  obtain ⟨hsteady, hlength⟩ := h
  have hcommand : (symbolInstruction c).command = Command.ofSymbol c := rfl
  unfold Machine.obey reachStep
  rw [hcommand]
  cases hc : Command.ofSymbol c with
  | draw =>
    rw [← hlength]
    exact ⟨hsteady.advance m.turtle.length, rfl⟩
  | incline factor =>
    obtain ⟨x, hx, hx_le⟩ := exists_factor (.inl hc)
    exact ⟨hsteady.pitch (isFinite_mul_of_abs_le_one hinclination hx hx_le), hlength⟩
  | azimuth factor =>
    obtain ⟨x, hx, hx_le⟩ := exists_factor (.inr hc)
    exact ⟨hsteady.azimuth (isFinite_mul_of_abs_le_one hazimuth hx hx_le), hlength⟩
  | openBranch => exact ⟨hsteady.enterBranch, hlength⟩
  | closeBranch => exact absurd hc hclosed
  | decayThickness => exact ⟨⟨hsteady.position, hsteady.rotation, hsteady.branchAxis⟩, hlength⟩
  | decayLength =>
    rw [← hlength]
    exact ⟨⟨hsteady.position, hsteady.rotation, hsteady.branchAxis⟩, rfl⟩
  | ignore => exact ⟨hsteady, hlength⟩

/-- Along a run in which no branch is closed, the turtle keeps within its reach. -/
theorem follows_of_unclosed_run {cs : List Char} {m : Machine}
    (horientation : s.settings.orientation = .identity)
    (hinclination : s.parameters.inclination.isFinite = true)
    (hazimuth : s.parameters.azimuth.isFinite = true)
    (hclosed : ∀ c ∈ cs, Command.ofSymbol c ≠ .closeBranch)
    (h : Machine.run s 0 (.start s) (cs.map symbolInstruction) = .ok m) :
    Follows (s.reachAlong cs) m := by
  induction cs using List.reverseRecOn generalizing m with
  | nil =>
    obtain rfl : Machine.start s = m := by simpa [Machine.run] using h
    exact follows_start horientation
  | append_singleton cs c ih =>
    rw [List.map_append, List.map_singleton, Machine.run_concat_ok_iff] at h
    obtain ⟨mid, hmid, -, rfl⟩ := h
    have hmid_follows := ih (fun d hd => hclosed d (by simp [hd])) hmid
    rw [reachAlong, List.foldl_concat]
    exact hmid_follows.obey hinclination hazimuth (hclosed c (by simp))

/-- **Reach.** Along any run, the turtle keeps within the reach of the word: a run over the live
part of the word ends with the same turtle, and closes no branch. -/
theorem steady_of_run {m : Machine} (horientation : s.settings.orientation = .identity)
    (hinclination : s.parameters.inclination.isFinite = true)
    (hazimuth : s.parameters.azimuth.isFinite = true)
    (h : Machine.run s 0 (.start s) (word.toList.map symbolInstruction) = .ok m) :
    m.turtle.Steady (s.reachAfter word) := by
  obtain ⟨hclosed, m', hm', hshadow⟩ := Machine.run_live h
  rw [← map_toList_liveText] at hclosed hm'
  rw [← hshadow.turtle]
  refine (follows_of_unclosed_run horientation hinclination hazimuth
    (fun c hc hclose => ?_) hm').steady
  have hnot := hclosed (symbolInstruction c) (List.mem_map_of_mem hc)
  rw [Marks.instruction_closes_iff.mpr hclose] at hnot
  cases hnot

/-- A run draws a finite mesh if every segment stays in reach. -/
theorem allFinite_of_run {cs : List Char} {m : Machine}
    (horientation : s.settings.orientation = .identity) (hsides : 0 < s.settings.sides.toNat)
    (hinclination : s.parameters.inclination.isFinite = true)
    (hazimuth : s.parameters.azimuth.isFinite = true)
    (hreach : s.StaysInReach (String.ofList cs))
    (h : Machine.run s 0 (.start s) (cs.map symbolInstruction) = .ok m) : m.mesh.AllFinite := by
  induction cs using List.reverseRecOn generalizing m with
  | nil =>
    obtain rfl : Machine.start s = m := by simpa [Machine.run] using h
    exact ⟨by simp [Machine.start, Mesh.empty], by simp [Machine.start, Mesh.empty]⟩
  | append_singleton cs c ih =>
    rw [List.map_append, List.map_singleton, Machine.run_concat_ok_iff] at h
    obtain ⟨mid, hmid, -, rfl⟩ := h
    have hmesh := ih (AtDraws.of_append hreach) hmid
    by_cases hdraw : (symbolInstruction c).command = .draw
    · obtain rfl : c = 'F' := eq_of_ofSymbol_draw hdraw
      rw [Machine.mesh_obey_of_draw hdraw]
      have hfinite := AtDraws.last hreach
      rw [← String.toList_ofList (l := cs)] at hmid
      have hsteady := steady_of_run horientation hinclination hazimuth hmid
      rw [← String.ofList_append, reachAfter_draw, lengthAfter, ← length_eq hmid, radiusAfter,
        ← thickness_eq hmid] at hfinite
      exact hmesh.addTube (hsteady.extend _) (hsteady.advance _) (by simpa using hsides) hfinite
    · rw [Machine.mesh_obey_of_ne_draw hdraw]
      exact hmesh

/-! ## Sums of small lengths -/

/-- A power of two does not change when half its last place is added: the half is rounded to the
even neighbour. -/
theorem nearestSingle_add_half_le {x y : ℝ} {e : ℤ} (he : -149 ≤ e) (hx : x ≤ 2 ^ (e + 24))
    (hy : y ≤ 2 ^ e) : nearestSingle (x + y) ≤ 2 ^ (e + 24) := by
  have hunit : (0 : ℝ) < 2 ^ e := by positivity
  have hpower : (2 : ℝ) ^ (e + 24) = 2 ^ 24 * 2 ^ e := by
    rw [zpow_add₀ (by norm_num), mul_comm]
    norm_num
  have hnext : (2 : ℝ) ^ (e + 1) = 2 * 2 ^ e := by rw [zpow_add_one₀ (by norm_num), mul_comm]
  have hsum : (0 : ℝ) < 2 ^ (e + 24) + 2 ^ e := by positivity
  have hplace : lastPlace (2 ^ (e + 24) + 2 ^ e) = e + 1 := by
    have hlow : e + 24 ≤ Int.log 2 ((2 : ℝ) ^ (e + 24) + 2 ^ e) := by
      apply (Int.zpow_le_iff_le_log (b := 2) (by norm_num) hsum).mp
      push_cast
      linarith
    have hhigh : Int.log 2 ((2 : ℝ) ^ (e + 24) + 2 ^ e) < e + 25 := by
      apply (Int.lt_zpow_iff_log_lt (b := 2) (by norm_num) hsum).mp
      have : (2 : ℝ) ^ (e + 25) = 2 ^ 25 * 2 ^ e := by
        rw [zpow_add₀ (by norm_num), mul_comm]
        norm_num
      push_cast
      rw [this, hpower]
      linarith
    unfold lastPlace
    rw [abs_of_pos hsum]
    omega
  -- In units of the last place the sum is a half more than an even number.
  have heven : NearestEven ((2 ^ (e + 24) + 2 ^ e) / 2 ^ (e + 1)) (2 ^ 23) := by
    have hunits : ((2 : ℝ) ^ (e + 24) + 2 ^ e) / 2 ^ (e + 1) = 2 ^ 23 + 1 / 2 := by
      rw [hpower, hnext]
      field_simp
    rw [hunits]
    exact ⟨by norm_num, fun _ => by decide⟩
  calc nearestSingle (x + y) ≤ nearestSingle (2 ^ (e + 24) + 2 ^ e) :=
        nearestSingle_mono (add_le_add hx hy)
    _ = 2 ^ 23 * 2 ^ (e + 1) := by
        rw [nearestSingle, hplace, heven.eq_nearestEven]
        norm_num
    _ = 2 ^ (e + 24) := by
        rw [hpower, hnext]
        ring

/-- A bound of at most `2 ^ (e + 24)` keeps to this when a stretched length is added, if the length
is not too great. -/
theorem exists_reach_add_le {e : ℤ} {bound length : Float32} {x y : ℝ} (he : -149 ≤ e)
    (he_le : e ≤ 103) (hy : HasValue bound y) (hy_nonneg : 0 ≤ y) (hy_le : y ≤ 2 ^ (e + 24))
    (hx : HasValue length x) (hx_nonneg : 0 ≤ x) (hx_le : (1 + 1 / 2 ^ 11) * x ≤ 2 ^ e) :
    ∃ z, HasValue (bound + stretch * length) z ∧ 0 ≤ z ∧ z ≤ 2 ^ (e + 24) := by
  have hlarge : (2 : ℝ) ^ (e + 24) < 2 ^ 128 := by
    have := zpow_lt_zpow_right₀ (one_lt_two (α := ℝ)) (by omega : e + 24 < 128)
    exact_mod_cast this
  have hsmall : (2 : ℝ) ^ e < 2 ^ 128 :=
    (zpow_le_zpow_right₀ one_le_two (by omega)).trans_lt hlarge
  have hproduct_nonneg : 0 ≤ (1 + 1 / 2 ^ 11) * x := by positivity
  obtain ⟨hproduct, hproduct_le⟩ := (hasValue_stretch.mul hx).hasValue_of_abs_le
    (representable_zpow he) hsmall (by rwa [abs_of_nonneg hproduct_nonneg])
  have hrounded_nonneg := nearestSingle_nonneg hproduct_nonneg
  rw [abs_of_nonneg hrounded_nonneg] at hproduct_le
  have hsum_le := nearestSingle_add_half_le he hy_le hproduct_le
  have hsum_nonneg := nearestSingle_nonneg (add_nonneg hy_nonneg hrounded_nonneg)
  refine ⟨_, (hy.add hproduct).hasValue ?_, hsum_nonneg, hsum_le⟩
  rw [abs_of_nonneg hsum_nonneg]
  exact hsum_le.trans_lt hlarge

/-- The reach is at most `2 ^ (e + 24)` after any word whose stretched lengths are at most `2 ^ e`.
For the sake of closed branches the induction is about everything the live part begins with. -/
theorem exists_reachAlong_le {e : ℤ} {bound : Float32} {ℓ : ℝ} {cs : List Char} (he : -149 ≤ e)
    (he_le : e ≤ 103) (hbound : HasValue bound ℓ) (hℓ : (1 + 1 / 2 ^ 11) * ℓ ≤ 2 ^ e)
    (h : s.LengthsWithin bound (String.ofList cs)) :
    ∀ l, l <+: Marks.text.live cs →
      ∃ y, HasValue (s.reachAlong l).bound y ∧ 0 ≤ y ∧ y ≤ 2 ^ (e + 24) := by
  induction cs using List.reverseRecOn with
  | nil =>
    intro l hl
    rw [Marks.live_nil, List.prefix_nil] at hl
    exact ⟨0, hl ▸ hasValue_zero, le_rfl, by positivity⟩
  | append_singleton cs c ih =>
    have hbefore := ih (AtDraws.of_append h)
    intro l hl
    rw [Marks.live_concat] at hl
    rcases Marks.liveStep_cases (Marks.text.live cs) c with happend | hprefix
    · rw [happend, List.prefix_concat_iff] at hl
      rcases hl with rfl | hshorter
      · obtain ⟨y, hy, hy_nonneg, hy_le⟩ := hbefore _ List.prefix_rfl
        rw [reachAlong, List.foldl_concat, ← reachAlong, reachStep]
        cases hc : Command.ofSymbol c with
        | draw =>
          obtain rfl := eq_of_ofSymbol_draw hc
          have hlength := AtDraws.last h
          rw [lengthAfter, liveText, String.toList_ofList, String.toList_ofList,
            ← length_reachAlong] at hlength
          obtain ⟨x, hx, hx_nonneg⟩ :=
            exists_hasValue_usableExtent (s.reachAlong (Marks.text.live cs)).length
          have hx_le : x ≤ ℓ := (hx.le_iff hbound).mp hlength
          exact exists_reach_add_le he he_le hy hy_nonneg hy_le hx hx_nonneg (by linarith)
        | _ => exact ⟨y, hy, hy_nonneg, hy_le⟩
      · exact hbefore l hshorter
    · exact hbefore l (hl.trans hprefix)

/-- Words whose lengths are small enough stay in reach if the radii are small enough: the reach is
at most `2 ^ (e + 24)`, and the stretched radius is at most `R`. -/
theorem staysInReach_of_le {e : ℤ} {bound : Float32} {ℓ R : ℝ} {word : String} (he : -149 ≤ e)
    (he_le : e ≤ 103) (hbound : HasValue bound ℓ) (hℓ : (1 + 1 / 2 ^ 11) * ℓ ≤ 2 ^ e)
    (hR : Representable R) (hsum : Representable (2 ^ (e + 24) + R))
    (hsum_lt : 2 ^ (e + 24) + R < 2 ^ 128) (h : s.LengthsWithin bound word)
    (hradii : AtDraws (fun before =>
      ∀ ρ, HasValue (s.radiusAfter before) ρ → (1 + 1 / 2 ^ 11) * ρ ≤ R) word) :
    s.StaysInReach word := by
  intro n hn hF
  have hbefore : word.toList.take (n + 1) = word.toList.take n ++ ['F'] := by
    rw [List.take_add_one, hF]
    rfl
  have hlengths : s.LengthsWithin bound (String.ofList (word.toList.take (n + 1))) :=
    AtDraws.take h (n + 1)
  obtain ⟨y, hy, hy_nonneg, hy_le⟩ :=
    exists_reachAlong_le he he_le hbound hℓ hlengths _ List.prefix_rfl
  have hreach : s.reachAfter (String.ofList (word.toList.take n) ++ "F") =
      (s.reachAlong (Marks.text.live (word.toList.take (n + 1)))).bound := by
    rw [hbefore, reachAfter, liveText, String.toList_ofList, String.toList_append,
      String.toList_ofList]
    rfl
  rw [← hreach] at hy
  obtain ⟨ρ, hρ, hρ_nonneg⟩ : ∃ ρ, HasValue (s.radiusAfter _) ρ ∧ 0 ≤ ρ :=
    exists_hasValue_usableExtent _
  have hproduct_nonneg : 0 ≤ (1 + 1 / 2 ^ 11) * ρ := by positivity
  have hpower : (0 : ℝ) < 2 ^ (e + 24) := by positivity
  obtain ⟨hproduct, hproduct_le⟩ := (hasValue_stretch.mul hρ).hasValue_of_abs_le hR (by linarith)
    (by rw [abs_of_nonneg hproduct_nonneg]; exact hradii n hn hF ρ hρ)
  have hrounded_nonneg := nearestSingle_nonneg hproduct_nonneg
  refine ((hy.add hproduct).hasValue_of_abs_le hsum hsum_lt ?_).1.isFinite
  rw [abs_of_nonneg (add_nonneg hy_nonneg hrounded_nonneg)]
  exact add_le_add hy_le ((le_abs_self _).trans hproduct_le)

/-- Words that draw no segment longer than `5e30` stay in reach, whatever their radii. -/
theorem LengthsWithin.staysInReach (h : s.LengthsWithin 5e30 word) : s.StaysInReach word := by
  have hbound : HasValue 5e30 ((16543612 : ℕ) * 2 ^ (78 : ℤ)) :=
    hasValue_of_fields 0x727c6f7c (by decide +kernel) (by decide) (by decide) (by decide)
  refine staysInReach_of_le (e := 102) (R := 2 ^ 127 + 2 ^ 116) (by norm_num) (by norm_num) hbound
    (by norm_num) ⟨2 ^ 11 + 1, 116, by norm_num, by norm_num, by norm_num⟩
    ⟨2 ^ 11 + 2 ^ 10 + 1, 116, by norm_num, by norm_num, by norm_num⟩ (by norm_num) h ?_
  intro n _ _ ρ hρ
  obtain ⟨ρ', hρ', -, hρ_le⟩ := exists_hasValue_radius
    (decayed s.parameters.thicknessDecay _ s.parameters.thickness)
  rw [hρ.unique hρ']
  linarith

/-- Words that draw no segment longer than `1e31` stay in reach, unless a radius is among the very
greatest ones. -/
theorem LengthsWithin.staysInReach_of_radii (h : s.LengthsWithin 1e31 word)
    (hradii : s.RadiiWithin 1.7e38 word) : s.StaysInReach word := by
  have hbound : HasValue 1e31 ((16543612 : ℕ) * 2 ^ (79 : ℤ)) :=
    hasValue_of_fields 0x72fc6f7c (by decide +kernel) (by decide) (by decide) (by decide)
  have hradius : HasValue 1.7e38 ((16763294 : ℕ) * 2 ^ (103 : ℤ)) :=
    hasValue_of_fields 0x7effc99e (by decide +kernel) (by decide) (by decide) (by decide)
  refine staysInReach_of_le (e := 103) (R := 2 ^ 127 - 2 ^ 115) (by norm_num) le_rfl hbound
    (by norm_num) ⟨2 ^ 12 - 1, 115, by norm_num, by norm_num, by norm_num⟩
    ⟨2 ^ 13 - 1, 115, by norm_num, by norm_num, by norm_num⟩ (by norm_num) h ?_
  intro n hn hF ρ hρ
  have hρ_le := (hρ.le_iff hradius).mp (hradii n hn hF)
  norm_num at hρ_le ⊢
  linarith

/-- **Finite geometry.** In an upright setup, a word whose segments stay in reach gives a mesh whose
vertices and segments have finite coordinates, however the word turns and branches.  Its segments do
stay in reach, however many there are, if none of them is longer than `5e30`, which is almost
`2 ^ 102`; and also if none is longer than `1e31`, almost `2 ^ 103`, and none has a radius above
`1.7e38`, which is almost `2 ^ 127`. -/
theorem finite_meshOfText {mesh : Mesh} (horientation : s.settings.orientation = .identity)
    (h : s.meshOfText word = .ok mesh) :
    (s.StaysInReach word → mesh.AllFinite) ∧
      (s.LengthsWithin 5e30 word → s.StaysInReach word) ∧
      (s.LengthsWithin 1e31 word → s.RadiiWithin 1.7e38 word → s.StaysInReach word) := by
  refine ⟨fun hreach => ?_, LengthsWithin.staysInReach, LengthsWithin.staysInReach_of_radii⟩
  obtain ⟨r, hr, rfl⟩ := meshOfText_eq_ok_iff.mp h
  obtain ⟨hfault, m, hrun, rfl⟩ := interpret_eq_ok_iff.mp hr
  obtain ⟨hsides, hparameters, -⟩ := sound_of_fault?_eq_none hfault
  obtain ⟨hinclination, hazimuth⟩ := isFinite_steps hparameters
  rw [← String.ofList_toList (s := word)] at hreach
  exact allFinite_of_run horientation (by omega) hinclination hazimuth hreach hrun

/-- The greatest thickness there is, and lengths that grow, in a word that turns, branches and
decays. -/
theorem finite_meshOfText_growing :
    let s : Setup :=
      ⟨{ Parameters.standard with
          thickness := 3.4028235e38, length := 2e37, lengthDecay := 1.2 }, .standard⟩
    ∃ mesh, s.meshOfText "F[+F>F]$F[-<F]#F" = .ok mesh ∧ mesh.AllFinite := by
  intro s
  obtain ⟨r, hr⟩ : ∃ r, s.interpretText "F[+F>F]$F[-<F]#F" = .ok r :=
    exists_result (by decide +kernel)
  have hmesh := meshOfText_eq_ok_iff.mpr ⟨r, hr, rfl⟩
  exact ⟨r.mesh, hmesh, (finite_meshOfText rfl hmesh).1 (by decide +kernel)⟩

-- One long segment stays in reach.
example : StaysInReach ⟨{ Parameters.standard with length := 3e38 }, .standard⟩ "F" := by
  decide +kernel

-- The lengths alone would not do, since a turned direction may be longer than one: the greatest
-- length there is ends at an infinite height after two turns.
example : (meshOfText ⟨{ Parameters.standard with length := 3.4028235e38 }, .standard⟩ ">>F").map
    (fun mesh => mesh.segments.toList.map fun segment => segment.tip.y.isFinite) = .ok [false] := by
  decide +kernel

/-- An upright setup with finite parameters, and a word of two segments: the second one ends at an
infinite height. -/
theorem meshOfText_overflows :
    let s : Setup := ⟨{ Parameters.standard with length := 3e38 }, ⟨3, 1024, .identity⟩⟩
    s.parameters.firstNonFinite? = none ∧
      ∃ mesh, s.meshOfText "FF" = .ok mesh ∧ ¬ mesh.AllFinite := by
  intro s
  refine ⟨by decide +kernel, ?_⟩
  have hheights : (s.meshOfText "FF").map (fun mesh =>
      mesh.segments.toList.map fun segment => segment.tip.y.isFinite) = .ok [true, false] := by
    decide +kernel
  cases hmesh : s.meshOfText "FF" with
  | error e =>
    rw [hmesh] at hheights
    cases hheights
  | ok mesh =>
    refine ⟨mesh, rfl, fun hfinite => ?_⟩
    rw [hmesh] at hheights
    have hlist : (mesh.segments.toList.map fun segment => segment.tip.y.isFinite) = [true, false] :=
      Except.ok.inj hheights
    have hinfinite : false ∈ mesh.segments.toList.map fun segment => segment.tip.y.isFinite := by
      rw [hlist]
      simp
    obtain ⟨segment, hsegment, hy⟩ := List.mem_map.mp hinfinite
    have hy_finite := (hfinite.segments segment (Array.mem_toList_iff.mp hsegment)).2.2.1
    rw [hy] at hy_finite
    cases hy_finite

end Setup

end BranchingTubes
